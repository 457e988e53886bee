/-
# Validation of transactions and headers

`core/protocol/validation.{hpp,cpp}`, `core/protocol/intrinsic_gas.cpp`,
`core/protocol/param.hpp`, `core/crypto/secp256k1n.cpp`, and the parts of
`core/types/{transaction,block}.cpp` they call.  Gas sums that cannot leave their machine
type for any input that fits in memory are natural numbers; base fees, blob gas and
everything else an input chooses freely keep their width.

The recovery of a sender from a signature is outside the repository (`sender`), as are the
EVM's own price constants, whose values the source's comments give.
-/
import Zilkworm.Trie.HashBuilder

namespace Zilkworm.Protocol

open Lib Rlp Zilkworm.Types State Chain

variable (keccak256 : Bytes → Bytes32) (t : Transaction) (rev : Revision) (sender : Option Address)
  (nonZeroBytes : ℕ)

/-- `ValidationResult`, without `kOk`, the enumerators no code of the guest returns left out. -/
inductive ValidationError where
  | unknownProtocolRuleSet | wrongStateRoot | wrongOmmersHash | wrongTransactionsRoot
  | wrongReceiptsRoot | wrongLogsBloom | unknownParent | gasAboveLimit | invalidGasLimit
  | invalidTimestamp | extraDataTooLong | wrongDaoExtraData | missingField | fieldBeforeFork
  | senderNoEOA | wrongNonce | intrinsicGas | insufficientFunds | blockGasLimitExceeded
  | tooManyOmmers | invalidOmmerHeader | notAnOmmer | duplicateOmmer | wrongBlockGas
  | invalidSignature | wrongChainId | unsupportedTransactionType | nonceTooHigh | wrongBaseFee
  | maxFeeLessThanBase | maxPriorityFeeGreaterThanMax | invalidNonce | maxInitCodeSizeExceeded
  | wrongWithdrawalsRoot | wrongBlobGasUsed | wrongExcessBlobGas | noBlobs | tooManyBlobs
  | wrongBlobCommitmentVersion | maxFeePerBlobGasTooLow | prohibitedContractCreation
  | emptyAuthorizations | requestsRootMismatch | requestsProcessingFailure | floorCost
  | maxTransactionGasLimitExceeded | blockAccessListGasExceeded | blockAccessListHashMismatch
  deriving DecidableEq, Repr

/-- `ValidationResult`; `kOk` is `.ok ()`. -/
abbrev ValidationResult := Except ValidationError Unit

/-! ## Parameters -/

/-- `kMinGasLimit`. -/
def kMinGasLimit : U64 := 5000

/-- `kMaxGasLimit`. -/
def kMaxGasLimit : U64 := 0x7FFFFFFFFFFFFFFF

/-- `kMaxInitCodeSize`. -/
def kMaxInitCodeSize : ℕ := 2 * 0x6000

/-- `evmone::MAX_INITCODE_SIZE_AMSTERDAM`. -/
def maxInitcodeSizeAmsterdam : ℕ := 2 * 0x10000

/-- `kMaxRlpBlockSize`. -/
def kMaxRlpBlockSize : ℕ := 10 * 1024 * 1024 - 2 * 1024 * 1024

/-- `kMaxExtraDataBytes`. -/
def kMaxExtraDataBytes : ℕ := 32

/-- `kGasPerBlob`. -/
def kGasPerBlob : ℕ := 2 ^ 17

/-- `kGiga`. -/
def kGiga : ℕ := 10 ^ 9

/-- `kEther`. -/
def kEther : ℕ := 10 ^ 18

/-! ## Gas -/

/-- `num_words`. -/
def numWords (numBytes : ℕ) : ℕ := numBytes / 32 + if numBytes % 32 ≠ 0 then 1 else 0

/-- `count_nonzero_bytes`. -/
def countNonzeroBytes (data : Bytes) : ℕ := (data.filter (· ≠ 0)).length

/-- The storage keys of an access list, all entries together. -/
def numStorageKeys : ℕ := (t.accessList.map fun e => e.storageKeys.length).sum

/-- `intrinsic_gas`. -/
def intrinsicGas : ℕ :=
  let contractCreation := t.to_ = none
  let gas := 21000 + (if contractCreation ∧ .homestead ≤ rev then 32000 else 0)
    + t.accessList.length * 2400 + numStorageKeys t * 1900 + t.authorizations.length * 25000
  if t.data = [] then gas
  else
    gas + nonZeroBytes * (if .istanbul ≤ rev then 16 else 68) + (t.data.length - nonZeroBytes) * 4
      + if contractCreation ∧ .shanghai ≤ rev then numWords t.data.length * 2 else 0

/-- `floor_cost` (EIP-7623). -/
def floorCost : ℕ :=
  21000 + ((t.data.length - nonZeroBytes) + nonZeroBytes * 4) * 10

/-- `TxGasCost`. -/
structure TxGasCost where
  regular : ℕ
  floor : ℕ

/-- `amsterdam_tx_gas_cost`; `sender` is the recovered sender. -/
def amsterdamTxGasCost : TxGasCost :=
  let coldAccountAccess := 3000
  let warmAccess := 100
  let isSelfTransfer := t.to_ ≠ none ∧ t.to_ = sender
  let zeroBytes := t.data.length - nonZeroBytes
  let dataCost := (4 * nonZeroBytes + zeroBytes) * 4
  let recipientRegular :=
    if t.to_ = none then 12000
    else if isSelfTransfer then 0
    else coldAccountAccess + if t.value ≠ 0 then 6000 else 0
  let initCodeGas := if t.to_ = none then 2 * numWords t.data.length else 0
  let accessListTokens := t.accessList.length * 80 + numStorageKeys t * 128
  let accessListRegular := t.accessList.length * (coldAccountAccess - warmAccess)
    + numStorageKeys t * (2100 - warmAccess)
  let accessListCost := accessListRegular + accessListTokens * 16
  let authRegular := t.authorizations.length * (101 * 16 + 3000 + coldAccountAccess + 2 * warmAccess)
  let baseRegular := 12000 + recipientRegular
  { regular := baseRegular + initCodeGas + dataCost + accessListCost + authRegular
    floor := (t.data.length * 4 + accessListTokens) * 16 + baseRegular }

/-- `total_blob_gas`. -/
def totalBlobGas : ℕ := kGasPerBlob * t.blobVersionedHashes.length

/-- `maximum_gas_cost`, in 512 bits. -/
def maximumGasCost : ℕ :=
  t.gasLimit.toNat * t.maxFeePerGas.toNat + totalBlobGas t * t.maxFeePerBlobGas.toNat

/-- The rounds of `fake_exponential`, from round `i` on. -/
def fakeExponentialRounds (numerator : U256) (divisor : ℕ → U256) :
    (fuel i : ℕ) → (output accum : U256) → U256
  | 0, _, output, _ => output
  | fuel + 1, i, output, accum =>
    if accum = 0 then output
    else fakeExponentialRounds numerator divisor fuel (i + 1) (output + accum)
      (accum * numerator / divisor i)

/-- The divisor of round `i`: in 64 bits for a denominator of 32. -/
def fakeExponentialDivisor (denominator : U256) (i : ℕ) : U256 :=
  if denominator ≤ 0xffffffff then (denominator.setWidth 64 * BitVec.ofNat 64 i).setWidth 256
  else denominator * BitVec.ofNat 256 i

/-- `fake_exponential`.  A loop of `2 ^ 32` rounds would divide by its wrapped counter. -/
def fakeExponential (factor numerator denominator : U256) : U256 :=
  fakeExponentialRounds numerator (fakeExponentialDivisor denominator) (2 ^ 32 - 1) 1 0
    (factor * denominator) / denominator

/-- `calc_blob_gas_price`. -/
def calcBlobGasPrice (excessBlobGas : U64) (p : BlobParams) : U256 :=
  fakeExponential 1 (excessBlobGas.setWidth 256) (BitVec.ofNat 256 p.baseFeeUpdateFraction)

/-- `BlockHeader::blob_gas_price`. -/
def blobGasPrice (h : BlockHeader) (config : ChainConfig) : Option U256 :=
  h.excessBlobGas.map fun e => calcBlobGasPrice e (config.blobParams h.timestamp)

/-! ## Transactions -/

/-- `transaction_type_is_supported`. -/
def transactionTypeIsSupported (type : TransactionType) (rev : Revision) : Bool :=
  match type with
  | .legacy => true
  | .accessList => Revision.berlin ≤ rev
  | .dynamicFee => Revision.london ≤ rev
  | .blob => Revision.cancun ≤ rev
  | .setCode => Revision.prague ≤ rev
  | .system => false

/-- `kSecp256k1n`. -/
def kSecp256k1n : U256 := 0xfffffffffffffffffffffffffffffffebaaedce6af48a03bbfd25e8cd0364141

/-- `is_valid_signature`. -/
def isValidSignature (r s : U256) (homestead : Bool) : Bool :=
  r ≠ 0 && s ≠ 0 && r < kSecp256k1n && s < kSecp256k1n && !(homestead && kSecp256k1n >>> 1 < s)

/-- The least gas limit `pre_validate_common_base` demands; Amsterdam's intrinsic cost is bounded
first. -/
def baseGas :
    Except ValidationError ℕ :=
  if .amsterdam ≤ rev then do
    let cost := amsterdamTxGasCost t sender nonZeroBytes
    rejectIf (0x1000000 < max cost.regular cost.floor) .intrinsicGas
    return cost.regular
  else .ok (intrinsicGas t rev nonZeroBytes)

/-- `pre_validate_common_base`. -/
def preValidateCommonBase (chainId : U64)
    (sender : Option Address) (nonZeroBytes : ℕ) : ValidationResult := do
  rejectIf (t.chainId ≠ none ∧ rev < .spuriousDragon) .unsupportedTransactionType
  rejectIf (t.chainId.any fun c => c ≠ chainId.setWidth 256) .wrongChainId
  rejectIf (transactionTypeIsSupported t.type rev = false) .unsupportedTransactionType
  let g0 ← baseGas t rev sender nonZeroBytes
  rejectIf (t.gasLimit.toNat < g0) .intrinsicGas
  rejectIf (2 ^ 256 ≤ maximumGasCost t) .insufficientFunds
  rejectIf (t.nonce.toNat = 2 ^ 64 - 1) .nonceTooHigh

/-- The blob rules of `pre_validate_common_forks`. -/
def preValidateBlob (blobGasPrice : Option U256) : ValidationResult := do
  rejectIf (t.blobVersionedHashes = []) .noBlobs
  rejectIf (∃ h ∈ t.blobVersionedHashes, h.val.headD 0 ≠ 1) .wrongBlobCommitmentVersion
  -- comparing an integer with an optional that is empty says "not below"
  rejectIf (blobGasPrice.any fun p => t.maxFeePerBlobGas < p) .maxFeePerBlobGasTooLow
  rejectIf (t.to_ = none) .prohibitedContractCreation

/-- The rules of Prague in `pre_validate_common_forks`. -/
def preValidatePrague : ValidationResult := do
  rejectIf (t.type = .setCode ∧ t.to_ = none) .prohibitedContractCreation
  rejectIf (t.type = .setCode ∧ t.authorizations = []) .emptyAuthorizations
  let floor := if .amsterdam ≤ rev then (amsterdamTxGasCost t sender nonZeroBytes).floor
    else floorCost t nonZeroBytes
  rejectIf (t.gasLimit.toNat < floor) .floorCost

/-- `pre_validate_common_forks`. -/
def preValidateCommonForks (blobGasPrice : Option U256)
    (sender : Option Address) (nonZeroBytes : ℕ) : ValidationResult := do
  let maxInitcode := if .amsterdam ≤ rev then maxInitcodeSizeAmsterdam else kMaxInitCodeSize
  rejectIf (.shanghai ≤ rev ∧ t.to_ = none ∧ maxInitcode < t.data.length) .maxInitCodeSizeExceeded
  if .cancun ≤ rev ∧ t.type = .blob then preValidateBlob t blobGasPrice
  if .prague ≤ rev then preValidatePrague t rev sender nonZeroBytes
  rejectIf (.osaka ≤ rev ∧ rev < .amsterdam ∧ 0x1000000 < t.gasLimit.toNat)
    .maxTransactionGasLimitExceeded
  rejectIf (.amsterdam ≤ rev ∧ 2 ^ 32 - 1 < t.gasLimit.toNat) .maxTransactionGasLimitExceeded
  rejectIf (.osaka ≤ rev ∧ 6 < t.blobVersionedHashes.length) .tooManyBlobs

/-- `pre_validate_transaction`. -/
def preValidateTransaction (chainId : U64)
    (baseFeePerGas blobGasPrice : Option U256) (sender : Option Address) : ValidationResult := do
  let nonZeroBytes := countNonzeroBytes t.data
  preValidateCommonBase t rev chainId sender nonZeroBytes
  rejectIf (isValidSignature t.r t.s (.homestead ≤ rev) = false) .invalidSignature
  rejectIf (.london ≤ rev ∧ baseFeePerGas.any fun f => t.maxFeePerGas < f) .maxFeeLessThanBase
  rejectIf (.london ≤ rev ∧ t.maxFeePerGas < t.maxPriorityFeePerGas) .maxPriorityFeeGreaterThanMax
  preValidateCommonForks t rev blobGasPrice sender nonZeroBytes

/-- `pre_validate_transactions`. -/
def preValidateTransactions (sender : Transaction → Option Address) (block : Block)
    (config : ChainConfig) : ValidationResult :=
  let h := block.header
  block.transactions.forM fun t =>
    preValidateTransaction t (config.revision h.number h.timestamp) config.chainId h.baseFeePerGas
      (blobGasPrice h config) (sender t)

/-- `validate_transaction`: the checks against the state, which notes each read. -/
def validateTransaction {σ : Type} [ActiveState keccak256 σ]
    (t : Transaction) (sender : Option Address) (availableGas : U64) (s : σ) : ValidationResult × σ :=
  match sender with
  | none => (.error .invalidSignature, s)
  | some sender =>
    let (codeHash, s) := ActiveState.readCodeHash keccak256 sender s
    let (isEoa, s) :=
      if codeHash.any fun h => h ≠ kEmptyHash then
        let (code, s) := ActiveState.readCode keccak256 sender s
        (isCodeDelegated code, s)
      else (true, s)
    if !isEoa then (.error .senderNoEOA, s)
    else
      let (nonce, s) := ActiveState.getNonce keccak256 sender s
      if nonce ≠ t.nonce then (.error .wrongNonce, s)
      else
        let (balance, s) := ActiveState.getBalance keccak256 sender s
        if balance.toNat < maximumGasCost t + t.value.toNat then (.error .insufficientFunds, s)
        else if availableGas < t.gasLimit then (.error .blockGasLimitExceeded, s)
        else (.ok (), s)

/-! ## Headers and roots -/

/-- `expected_base_fee_per_gas`. -/
def expectedBaseFeePerGas (parent : BlockHeader) : U256 :=
  match parent.baseFeePerGas with
  | none => BitVec.ofNat 256 kGiga
  | some fee =>
    let target := parent.gasLimit / 2
    let target256 := target.setWidth 256
    if parent.gasUsed = target then fee
    else if target < parent.gasUsed then
      let delta := fee * (parent.gasUsed - target).setWidth 256 / target256 / 8
      fee + if delta < 1 then 1 else delta
    else
      let delta := fee * (target - parent.gasUsed).setWidth 256 / target256 / 8
      if delta < fee then fee - delta else 0

/-- `calc_excess_blob_gas`. -/
def calcExcessBlobGas (header parent : BlockHeader) (config : ChainConfig) : U64 :=
  let parentExcess := parent.excessBlobGas.getD 0
  let parentUsed := parent.blobGasUsed.getD 0
  let parentBaseFee := parent.baseFeePerGas.getD 0
  let p := config.blobParams header.timestamp
  let targetGas : U64 := BitVec.ofNat 64 (p.target * kGasPerBlob)
  if parentExcess + parentUsed < targetGas then 0
  else if .osaka ≤ config.revision header.number header.timestamp ∧
      BitVec.ofNat 256 kGasPerBlob * calcBlobGasPrice parentExcess p < 0x2000 * parentBaseFee then
    parentExcess + parentUsed * BitVec.ofNat 64 (p.max - p.target) / BitVec.ofNat 64 p.max
  else parentExcess + parentUsed - targetGas

/-- `compute_transaction_root`: of the bytes kept by the decoder when every transaction has them. -/
def computeTransactionRoot (block : Block) : Bytes32 :=
  if block.transactions.all fun t => t.rlpEncoded ≠ [] then
    Trie.vectorRoot keccak256 (block.transactions.map (·.rlpEncoded))
  else Trie.vectorRoot keccak256 (block.transactions.map (·.encode false))

/-- `compute_withdrawals_root`. -/
def computeWithdrawalsRoot (block : Block) : Option Bytes32 :=
  block.withdrawals.map fun ws => Trie.vectorRoot keccak256 (ws.map Withdrawal.encode)

/-- `compute_ommers_hash`. -/
def computeOmmersHash (block : Block) : Bytes32 :=
  if block.ommers = [] then kEmptyListHash
  else keccak256 (encodeVector (fun h => h.encode.length) BlockHeader.encode block.ommers)

end Zilkworm.Protocol
