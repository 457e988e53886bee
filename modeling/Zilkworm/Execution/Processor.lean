/-
# The execution processor

`core/execution/processor.cpp` and `core/protocol/blockchain.cpp`: the execution of one
block.  The EVM, its system calls and its builder of block access lists are outside the
repository; they are fields of `Host`, each a program of reads through the state's view.
-/
import Zilkworm.Execution.Receipts

namespace Zilkworm.Execution

open Lib Rlp Zilkworm.Types State Chain Protocol

/-- `evmone::state::BlockInfo`. -/
structure BlockInfo where
  number : U64
  timestamp : U64
  gasLimit : U64
  coinbase : Address
  difficulty : U64
  prevRandao : Bytes32
  parentBeaconBlockRoot : Bytes32
  baseFee : U64
  chainId : U64
  excessBlobGas : U64
  blobBaseFee : U256
  slotNumber : U64
  ommers : List (Address × BitVec 32)
  withdrawals : List Withdrawal

/-- `evmone::state::TransactionProperties`. -/
structure TransactionProperties where
  executionGasLimit : ℤ
  stateGasLimit : ℤ := 0
  minGasCost : ℤ

/-- `evmone::state::TransactionReceipt`. -/
structure TransactionReceipt where
  gasUsed : U64
  success : Bool
  logs : List Log
  stateDiff : StateDiff
  blockGasUsed : ℤ := 0
  stateGasUsed : ℤ := 0

/-- **What the repository calls and does not contain**: the hashes, the recovery of a
transaction's sender, and the EVM. -/
structure Host where
  keccak256 : Bytes → Bytes32
  sha256 : Bytes → Bytes32
  /-- `Transaction::sender`. -/
  sender : Transaction → Option Address
  /-- `evmone::state::transition`. -/
  transition : BlockInfo → Transaction → (sender : Address) → Revision → TransactionProperties →
    Reads TransactionReceipt
  /-- `evmone::state::system_call_block_start`. -/
  systemCallBlockStart : BlockInfo → Revision → Reads StateDiff
  /-- `evmone::state::system_call_block_end`; `none` when a system contract fails. -/
  systemCallBlockEnd : BlockInfo → Revision → Reads (Option (StateDiff × List (FlatRequestType × Bytes)))
  /-- `evmone::state::finalize`, without a block reward. -/
  finalize : Revision → Address → BlockInfo → Reads StateDiff
  /-- `evmone::state::BalBuilder`. -/
  Bal : Type
  balEmpty : Bal
  recordDiff : ℕ → StateDiff → Bal → Reads Bal
  exceedsGasLimit : Bal → U64 → Bool
  balHash : Bal → Bytes32

/-- A host whose EVM does nothing, which is all that a block without transactions needs before
Cancun. -/
def Host.idle (keccak256 : Bytes → Bytes32) : Host where
  keccak256 := keccak256
  sha256 _ := zeroBytes32
  sender _ := none
  transition _ _ _ _ _ := .done ⟨0, true, [], {}, 0, 0⟩
  systemCallBlockStart _ _ := .done {}
  systemCallBlockEnd _ _ := .done none
  finalize _ _ _ := .done {}
  Bal := Unit
  balEmpty := ()
  recordDiff _ _ _ := .done ()
  exceedsGasLimit _ _ := false
  balHash _ := zeroBytes32

/-- The block info of the constructor of `ExecutionProcessor`. -/
def blockInfo (config : ChainConfig) (block : Block) : BlockInfo :=
  let h := block.header
  { number := h.number
    timestamp := h.timestamp
    gasLimit := h.gasLimit
    coinbase := h.beneficiary
    difficulty := h.difficulty.setWidth 64
    prevRandao := if h.difficulty = 0 then h.prevRandao else Bytes32.ofNat h.difficulty.toNat
    parentBeaconBlockRoot := h.parentBeaconBlockRoot.getD zeroBytes32
    baseFee := (h.baseFeePerGas.getD 0).setWidth 64
    chainId := config.chainId
    excessBlobGas := h.excessBlobGas.getD 0
    blobBaseFee := (blobGasPrice h config).getD 0
    slotNumber := h.slotNumber.getD 0
    ommers := block.ommers.map fun o => (o.beneficiary, (h.number - o.number).setWidth 32)
    withdrawals := block.withdrawals.getD [] }

section

variable (host : Host) {σ : Type} [ActiveState host.keccak256 σ] (config : ChainConfig) (block : Block)

/-- The members of `ExecutionProcessor` that change as a block runs, and its receipts. -/
structure Progress (host : Host) (σ : Type) where
  state : σ
  cumulativeGasUsed : U64 := 0
  sumRegularBlockGas : ℤ := 0
  sumStateBlockGas : ℤ := 0
  bal : host.Bal
  txIndex : ℕ := 0
  receipts : List Receipt := []

/-- The properties `execute_transaction` hands to the EVM. -/
def transactionProperties (rev : Revision) (t : Transaction) (sender : Option Address) :
    TransactionProperties :=
  let nonZeroBytes := countNonzeroBytes t.data
  if .amsterdam ≤ rev then
    let cost := amsterdamTxGasCost t sender nonZeroBytes
    let stateGasLimit := max (t.gasLimit.toInt - 0x1000000) 0
    { executionGasLimit := t.gasLimit.toInt - cost.regular - stateGasLimit
      stateGasLimit := stateGasLimit
      minGasCost := cost.floor }
  else
    { executionGasLimit := (t.gasLimit - BitVec.ofNat 64 (intrinsicGas t rev nonZeroBytes)).toInt
      minGasCost := if .prague ≤ rev then floorCost t nonZeroBytes else 0 }

/-- The delegation markers of a transaction's authorizations, kept before it runs. -/
def noteAuthorizations (t : Transaction) (s : σ) : σ :=
  t.authorizations.foldl (fun s a =>
    if a.address = zeroAddress then s
    else ActiveState.noteCreatedCode host.keccak256 ([0xef, 0x01, 0x00] ++ a.address.val) s) s

/-- Records a state diff in the block access list, from Amsterdam on. -/
def recordDiff (rev : Revision) (header : BlockHeader) (index : ℕ) (diff : StateDiff)
    (p : Progress host σ) : Progress host σ :=
  if .amsterdam ≤ rev then
    let (bal, s) := (host.recordDiff index diff p.bal).run host.keccak256 header p.state
    { p with bal := bal, state := s }
  else p

/-- `apply_state_diff`. -/
def applyDiff (diff : StateDiff) (p : Progress host σ) : Progress host σ :=
  { p with state := ActiveState.applyStateDiff host.keccak256 diff p.state }

/-- `execute_transaction`. -/
def executeTransaction (t : Transaction) (sender : Address)
    (p : Progress host σ) : Progress host σ :=
  let rev := config.revision block.header.number block.header.timestamp
  let (receipt, s) := (host.transition (blockInfo config block) t sender rev
    (transactionProperties rev t (some sender))).run host.keccak256 block.header
      (noteAuthorizations host t p.state)
  let cumulative := p.cumulativeGasUsed + receipt.gasUsed
  let p := { p with state := s, cumulativeGasUsed := cumulative }
  let p := if .amsterdam ≤ rev then
      { p with
        sumRegularBlockGas := p.sumRegularBlockGas + (receipt.blockGasUsed - receipt.stateGasUsed)
        sumStateBlockGas := p.sumStateBlockGas + receipt.stateGasUsed }
    else p
  let p := recordDiff host rev block.header (p.txIndex + 1) receipt.stateDiff p
  let p := { p with
    txIndex := p.txIndex + 1
    receipts := p.receipts ++ [{
      type := t.type
      success := receipt.success
      cumulativeGasUsed := cumulative
      bloom := logsBloom host.keccak256 receipt.logs
      logs := receipt.logs }] }
  applyDiff host receipt.stateDiff p

/-- `available_gas`. -/
def availableGas (header : BlockHeader) (p : Progress host σ) : U64 :=
  if p.sumRegularBlockGas ≠ 0 ∨ p.sumStateBlockGas ≠ 0 then
    header.gasLimit - BitVec.ofInt 64 (max p.sumRegularBlockGas p.sumStateBlockGas)
  else header.gasLimit - p.cumulativeGasUsed

/-- The inclusion check of EIP-8037, which Amsterdam makes for each dimension. -/
def exceedsBlockGas (header : BlockHeader) (t : Transaction) (p : Progress host σ) : Bool :=
  header.gasLimit.toInt - p.sumRegularBlockGas < min 0x1000000 t.gasLimit.toInt ∨
    header.gasLimit.toInt - p.sumStateBlockGas < t.gasLimit.toInt

/-- The transactions of a block, in order, up to the first that is invalid. -/
def executeTransactions :
    List Transaction → Progress host σ → ValidationResult × Progress host σ
  | [], p => (.ok (), p)
  | t :: ts, p =>
    let rev := config.revision block.header.number block.header.timestamp
    if .amsterdam ≤ rev ∧ exceedsBlockGas host block.header t p then
      (.error .blockGasLimitExceeded, p)
    else
      let gasAvailable :=
        if .amsterdam ≤ rev then block.header.gasLimit else availableGas host block.header p
      match validateTransaction host.keccak256 t (host.sender t) gasAvailable p.state with
      | (.error e, s) => (.error e, { p with state := s })
      | (.ok (), s) =>
        executeTransactions ts (executeTransaction host config block t
          ((host.sender t).getD zeroAddress) { p with state := s })

/-- The block-start system calls. -/
def blockStart (p : Progress host σ) : Progress host σ :=
  let rev := config.revision block.header.number block.header.timestamp
  let (diff, s) := (host.systemCallBlockStart (blockInfo config block) rev).run host.keccak256
    block.header p.state
  applyDiff host diff (recordDiff host rev block.header 0 diff { p with state := s })

/-- The sweep of touched dead accounts, from Spurious Dragon on. -/
def sweepDead (rev : Revision) (s : σ) : σ :=
  if .spuriousDragon ≤ rev then
    ActiveState.destructDeadAmong host.keccak256 (ActiveState.touched host.keccak256 s) s
  else s

/-- The withdrawals of Amsterdam, which go through the EVM. -/
def finalizeAmsterdam (p : Progress host σ) :
    Progress host σ :=
  let rev := config.revision block.header.number block.header.timestamp
  let (diff, s) := (host.finalize rev block.header.beneficiary (blockInfo config block)).run
    host.keccak256 block.header p.state
  applyDiff host diff
    (recordDiff host rev block.header (block.transactions.length + 1) diff { p with state := s })

/-- The deposits in the receipts' logs, receipt by receipt. -/
def collectDeposits (receipts : List Receipt) : Option FlatRequests :=
  receipts.foldlM (fun rs r => rs.extractDepositsFromLogs r.logs) (fun _ => [])

/-- The block-end system calls and the requests hash. -/
def blockEnd (p : Progress host σ) :
    ValidationResult × Progress host σ :=
  let rev := config.revision block.header.number block.header.timestamp
  if .prague ≤ rev ∧ block.header.requestsHash ≠ none then
    match collectDeposits p.receipts with
    | none => (.error .requestsProcessingFailure, p)
    | some requests =>
      match (host.systemCallBlockEnd (blockInfo config block) rev).run host.keccak256 block.header
          p.state with
      | (none, s) => (.error .requestsProcessingFailure, { p with state := s })
      | (some (diff, reqs), s) =>
        let p := applyDiff host diff (recordDiff host rev block.header
          (block.transactions.length + 1) diff { p with state := s })
        let requests := reqs.foldl (fun (rs : FlatRequests) r => rs.addRequest r.1 r.2) requests
        if some (requests.calculateSha256 host.sha256) ≠ block.header.requestsHash then
          (.error .requestsRootMismatch, p)
        else (.ok (), p)
  else (.ok (), p)

/-- The checks of the finished block against its header. -/
def checkHeader (p : Progress host σ) : ValidationResult := do
  let h := block.header
  let rev := config.revision h.number h.timestamp
  let expectedGasUsed := if .amsterdam ≤ rev then
      BitVec.ofInt 64 (max p.sumRegularBlockGas p.sumStateBlockGas)
    else p.cumulativeGasUsed
  rejectIf (expectedGasUsed ≠ h.gasUsed) .wrongBlockGas
  rejectIf (.byzantium ≤ rev ∧
    Trie.vectorRoot host.keccak256 (p.receipts.map Receipt.encode) ≠ h.receiptsRoot) .wrongReceiptsRoot
  let bloom := p.receipts.foldl (fun b r => if r.logs = [] then b else joinBloom b r.bloom)
    (FixedBytes.zero 256)
  rejectIf (bloom ≠ h.logsBloom) .wrongLogsBloom
  rejectIf (.amsterdam ≤ rev ∧ host.exceedsGasLimit p.bal h.gasLimit = true) .blockAccessListGasExceeded
  rejectIf (.amsterdam ≤ rev ∧ host.balHash p.bal ≠ h.blockAccessListHash.getD zeroBytes32)
    .blockAccessListHashMismatch

/-- The finalization of a block before Amsterdam, with the sweep that follows it. -/
def finalizeBlock (s : σ) : σ :=
  let rev := config.revision block.header.number block.header.timestamp
  sweepDead host rev
    (if rev < .amsterdam then Protocol.finalize host.keccak256 config block s else s)

/-- The processor when `execute_block` comes to the first transaction. -/
def startProgress (s : σ) : Progress host σ :=
  let s := initializeBlock host.keccak256 config block s
  let p := blockStart host config block { state := s, bal := host.balEmpty }
  { p with state := sweepDead host (config.revision block.header.number block.header.timestamp) p.state }

/-- `ExecutionProcessor::execute_block` up to the finalization. -/
def executeToEnd (s : σ) : ValidationResult × Progress host σ :=
  let rev := config.revision block.header.number block.header.timestamp
  match executeTransactions host config block block.transactions (startProgress host config block s) with
  | (.error e, p) => (.error e, p)
  | (.ok (), p) =>
    let p := { p with state := ActiveState.clearTouched host.keccak256 p.state }
    let p := if .amsterdam ≤ rev then finalizeAmsterdam host config block p else p
    blockEnd host config block p

/-- `ExecutionProcessor::execute_block`. -/
def executeBlock (s : σ) : ValidationResult × σ :=
  match executeToEnd host config block s with
  | (.error e, p) => (.error e, p.state)
  | (.ok (), p) =>
    let p := { p with state := finalizeBlock host config block p.state }
    (checkHeader host config block p, p.state)

/-- `Blockchain::execute_block`. -/
def executeAndCheck (checkStateRoot : Bool) (config : ChainConfig) (block : Block) (s : σ) :
    ValidationResult × σ :=
  match executeBlock host config block s with
  | (.error e, s) => (.error e, s)
  | (.ok (), s) =>
    (rejectIf (checkStateRoot = true ∧
      ActiveState.stateRootHash host.keccak256 s ≠ some block.header.stateRoot) .wrongStateRoot, s)

/-- `Blockchain::insert_block`. -/
def insertBlock (checkStateRoot : Bool) (config : ChainConfig) (block : Block) (s : σ) :
    ValidationResult × σ :=
  match RuleSet.merge.validateBlockHeader host.keccak256 config block.header s with
  | .error e => (.error e, s)
  | .ok () =>
    match preValidateBlockBody host.keccak256 host.sender config block s with
    | .error e => (.error e, s)
    | .ok () => executeAndCheck host checkStateRoot config block s

end

end Zilkworm.Execution
