/-
# Rule sets

`core/protocol/{rule_set,ethash_rule_set,merge_rule_set}.cpp`: the base class with its
virtual functions, and the two rule sets the factory wires together.  The Merge rule set
handles blocks of difficulty zero itself and hands every other block to the Ethash one,
except for the header, which it always validates itself; the check that a block after the
Merge has difficulty zero is commented out.

Neither backend holds block bodies, so `read_body` never finds one.
-/
import Zilkworm.Protocol.Validation
import Zilkworm.Chain.Dao

namespace Zilkworm.Protocol

open Lib Rlp Zilkworm.Types State Chain

/-- The two classes derived from `RuleSet`. -/
inductive RuleSet where
  | ethash | merge
  deriving DecidableEq, Repr

/-- `BlockReward`. -/
structure BlockReward where
  miner : U256
  ommers : List U256
  deriving DecidableEq

/-- `prohibit_ommers_`. -/
def RuleSet.prohibitOmmers : RuleSet → Bool
  | .ethash => false
  | .merge => true

/-- The extra data of the blocks after the DAO fork, "dao-hard-fork". -/
def kDaoExtraData : Bytes := asciiBytes "dao-hard-fork"

/-- `validate_extra_data`. -/
def RuleSet.validateExtraData (rs : RuleSet) (config : ChainConfig) (h : BlockHeader) :
    ValidationResult := do
  rejectIf (rs = .ethash ∧ config.daoBlock.any (fun d => d ≤ h.number ∧ h.number ≤ d + 9) ∧
    h.extraData ≠ kDaoExtraData) .wrongDaoExtraData
  rejectIf (kMaxExtraDataBytes < h.extraData.length) .extraDataTooLong

/-- `validate_difficulty_and_seal`. -/
def RuleSet.validateDifficultyAndSeal (rs : RuleSet) (h : BlockHeader) : ValidationResult :=
  match rs with
  | .ethash => .ok ()
  | .merge => rejectIf (h.nonce ≠ FixedBytes.zero 8) .invalidNonce

/-- An optional field that a fork requires, and that no block before the fork may have. -/
def fieldIffFork {α : Type} [DecidableEq α] (fork : Bool) (field : Option α) : ValidationResult :=
  if fork then rejectIf (field = none) .missingField
  else rejectIf (field ≠ none) .fieldBeforeFork

section

variable (keccak256 : Bytes → Bytes32) {σ : Type} [ActiveState keccak256 σ] (rs : RuleSet)
  (config : ChainConfig) (h parent : BlockHeader) (block : Block) (s : σ)

/-- `get_parent_header`. -/
def getParentHeader (h : BlockHeader) : Option BlockHeader :=
  if h.number = 0 then none else ActiveState.readHeader keccak256 s (h.number - 1) h.parentHash

/-- The gas limit moves by less than a 1024th of the parent's, doubled at the London block. -/
def validateGasLimit : ValidationResult :=
  let parentGasLimit :=
    if some h.number = config.londonBlock then parent.gasLimit * 2 else parent.gasLimit
  let gasDelta :=
    if parentGasLimit < h.gasLimit then h.gasLimit - parentGasLimit else parentGasLimit - h.gasLimit
  rejectIf (parentGasLimit / 1024 ≤ gasDelta) .invalidGasLimit

/-- The base fee of `validate_block_header`. -/
def validateBaseFee (rev : Revision) (h parent : BlockHeader) : ValidationResult := do
  fieldIffFork (.london ≤ rev) h.baseFeePerGas
  rejectIf (.london ≤ rev ∧ h.baseFeePerGas ≠ some (expectedBaseFeePerGas parent)) .wrongBaseFee

/-- The blob fields of `validate_block_header`. -/
def validateBlobFields (rev : Revision) (h parent : BlockHeader) :
    ValidationResult :=
  if rev < .cancun then
    rejectIf (h.blobGasUsed ≠ none ∨ h.excessBlobGas ≠ none ∨ h.parentBeaconBlockRoot ≠ none)
      .fieldBeforeFork
  else do
    rejectIf (h.blobGasUsed = none ∨ h.excessBlobGas = none ∨ h.parentBeaconBlockRoot = none)
      .missingField
    rejectIf (h.excessBlobGas ≠ some (calcExcessBlobGas h parent config)) .wrongExcessBlobGas

/-- The fields of Amsterdam in `validate_block_header`. -/
def validateAmsterdamFields (rev : Revision) (h : BlockHeader) : ValidationResult :=
  if rev < .amsterdam then
    rejectIf (h.blockAccessListHash ≠ none ∨ h.slotNumber ≠ none) .fieldBeforeFork
  else rejectIf (h.blockAccessListHash = none ∨ h.slotNumber = none) .missingField

/-- `validate_block_header` once the parent is known. -/
def RuleSet.validateAgainstParent :
    ValidationResult := do
  rejectIf (h.timestamp ≤ parent.timestamp) .invalidTimestamp
  validateGasLimit config h parent
  let rev := config.revision h.number h.timestamp
  validateBaseFee rev h parent
  fieldIffFork (config.withdrawalsActivated h.timestamp) h.withdrawalsRoot
  validateBlobFields config rev h parent
  fieldIffFork (.prague ≤ rev) h.requestsHash
  validateAmsterdamFields rev h
  rs.validateDifficultyAndSeal h

/-- `RuleSet::validate_block_header`. -/
def RuleSet.validateBlockHeader (h : BlockHeader) (s : σ) :
    ValidationResult := do
  rejectIf (h.gasLimit < h.gasUsed) .gasAboveLimit
  rejectIf (h.gasLimit < kMinGasLimit ∨ kMaxGasLimit < h.gasLimit) .invalidGasLimit
  rs.validateExtraData config h
  rejectIf (rs.prohibitOmmers = true ∧ h.ommersHash ≠ kEmptyListHash) .wrongOmmersHash
  match getParentHeader keccak256 s h with
  | none => .error .unknownParent
  | some parent => rs.validateAgainstParent config h parent

/-- `read_body` of either backend. -/
def readBody (_ : σ) (_ : U64) (_ : Bytes32) : Option (List BlockHeader) := none

/-- `is_kin`, with the ommers of the mainline blocks it has passed. -/
def isKin (branch : BlockHeader) (s : σ) :
    (n : ℕ) → (mainline : BlockHeader) → (mainlineHash : Bytes32) → (oldOmmers : List BlockHeader) →
    Bool × List BlockHeader
  | 0, _, _, old => (false, old)
  | n + 1, mainline, mainlineHash, old =>
    if branch = mainline then (false, old)
    else
      match readBody s mainline.number mainlineHash with
      | none => (false, old)
      | some ommers =>
        match getParentHeader keccak256 s mainline with
        | none => (false, old ++ ommers)
        | some mainlineParent =>
          if getParentHeader keccak256 s branch = some mainlineParent then (true, old ++ ommers)
          else isKin branch s n mainlineParent mainline.parentHash (old ++ ommers)

/-- One ommer of `validate_ommers`. -/
def RuleSet.validateOmmer (header parent : BlockHeader) (s : σ)
    (ommer : BlockHeader) : ValidationResult := do
  rejectIf (rs.validateBlockHeader keccak256 config ommer s ≠ .ok ()) .invalidOmmerHeader
  let (kin, oldOmmers) := isKin keccak256 ommer s 6 parent header.parentHash []
  rejectIf (kin = false) .notAnOmmer
  rejectIf (ommer ∈ oldOmmers) .duplicateOmmer

/-- `validate_ommers`; the caller has found the parent. -/
def RuleSet.validateOmmers :
    ValidationResult :=
  if rs.prohibitOmmers then rejectIf (block.ommers ≠ []) .tooManyOmmers
  else do
    rejectIf (2 < block.ommers.length) .tooManyOmmers
    rejectIf (block.ommers.length = 2 ∧ block.ommers[0]? = block.ommers[1]?) .duplicateOmmer
    block.ommers.forM (rs.validateOmmer keccak256 config block.header
      ((getParentHeader keccak256 s block.header).getD {}) s)

/-- The blob gas of a block's transactions, in 64 bits; none before Cancun. -/
def blockBlobGas (rev : Revision) (block : Block) : Option U64 :=
  if .cancun ≤ rev then
    some (block.transactions.foldl (fun n t => n + BitVec.ofNat 64 (totalBlobGas t)) 0)
  else none

/-- The end of `RuleSet::pre_validate_block_body`. -/
def RuleSet.preValidateOmmers :
    ValidationResult :=
  if block.ommers = [] then rejectIf (block.header.ommersHash ≠ kEmptyListHash) .wrongOmmersHash
  else do
    rejectIf (rs.prohibitOmmers = true) .tooManyOmmers
    rejectIf (computeOmmersHash keccak256 block ≠ block.header.ommersHash) .wrongOmmersHash
    rs.validateOmmers keccak256 config block s

/-- `RuleSet::pre_validate_block_body`. -/
def RuleSet.preValidateBlockBodyBase (sender : Transaction → Option Address)
    (config : ChainConfig) (block : Block) (s : σ) : ValidationResult := do
  let h := block.header
  rejectIf (computeTransactionRoot keccak256 block ≠ h.transactionsRoot) .wrongTransactionsRoot
  preValidateTransactions sender block config
  fieldIffFork (config.withdrawalsActivated h.timestamp) block.withdrawals
  rejectIf (computeWithdrawalsRoot keccak256 block ≠ h.withdrawalsRoot) .wrongWithdrawalsRoot
  let blobGasUsed := blockBlobGas (config.revision h.number h.timestamp) block
  rejectIf (blobGasUsed.any fun g =>
    BitVec.ofNat 64 ((config.blobParams h.timestamp).max * kGasPerBlob) < g) .tooManyBlobs
  rejectIf (h.blobGasUsed ≠ blobGasUsed) .wrongBlobGasUsed
  rs.preValidateOmmers keccak256 config block s

/-- `MergeRuleSet::pre_validate_block_body`. -/
def preValidateBlockBody (sender : Transaction → Option Address) (config : ChainConfig)
    (block : Block) (s : σ) : ValidationResult :=
  if block.header.difficulty ≠ 0 then
    RuleSet.ethash.preValidateBlockBodyBase keccak256 sender config block s
  else RuleSet.merge.preValidateBlockBodyBase keccak256 sender config block s

/-! ## Effects on the state -/

/-- `transfer_dao_balances`. -/
def transferDaoBalances : σ :=
  kChildren.foldl (fun s a =>
    let (bal, s) := ActiveState.getBalance keccak256 a s
    ActiveState.setBalance keccak256 a 0 (ActiveState.addToBalance keccak256 kWithdraw bal s)) s

/-- `initialize` of the Merge rule set. -/
def initializeBlock : σ :=
  if block.header.difficulty ≠ 0 ∧ some block.header.number = config.daoBlock then
    transferDaoBalances keccak256 s
  else s

/-- `block_reward_base`. -/
def blockRewardBase (rev : Revision) : U256 :=
  if .petersburg ≤ rev then BitVec.ofNat 256 (2 * kEther)
  else if .byzantium ≤ rev then BitVec.ofNat 256 (3 * kEther)
  else BitVec.ofNat 256 (5 * kEther)

/-- `EthashRuleSet::compute_reward`.  The distance to an ommer is taken in 64 bits. -/
def computeReward : BlockReward :=
  let base := blockRewardBase (config.revision block.header.number block.header.timestamp)
  { miner := block.ommers.foldl (fun r _ => r + base >>> 5) base
    ommers := block.ommers.map fun o =>
      ((8 + o.number - block.header.number).setWidth 256 * base) >>> 3 }

/-- `EthashRuleSet::finalize`. -/
def ethashFinalize : σ :=
  let reward := computeReward config block
  let s := ActiveState.addToBalance keccak256 block.header.beneficiary reward.miner s
  (block.ommers.zip reward.ommers).foldl
    (fun s o => ActiveState.addToBalance keccak256 o.1.beneficiary o.2 s) s

/-- A withdrawal's amount in Wei. -/
def amountInWei (w : Withdrawal) : U256 := w.amount.setWidth 256 * BitVec.ofNat 256 kGiga

/-- One withdrawal of `MergeRuleSet::finalize`. -/
def applyWithdrawal (w : Withdrawal) (s : σ) : σ :=
  let s := ActiveState.addToBalance keccak256 w.address (amountInWei w) s
  ActiveState.destructDeadAmong keccak256 (ActiveState.touched keccak256 s) s

/-- `MergeRuleSet::finalize`; it always returns `kOk`. -/
def finalize : σ :=
  if block.header.difficulty ≠ 0 then ethashFinalize keccak256 config block s
  else (block.withdrawals.getD []).foldl (fun s w => applyWithdrawal keccak256 w s) s

end

end Zilkworm.Protocol
