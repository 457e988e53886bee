/-
# The run of a stateless input

`run_sib` and `run_sib_block` of `dev/blockchain_test_runner.cpp`, in the `HashState` build.  The
result is the `StatelessValidationResult` the run outputs; a rejected block is a result too.
The text a run prints last, the payload and the block that was executed are kept with it.
-/
import Zilkworm.Run.CheckRootHash
import Zilkworm.Run.StateTransition
import Zilkworm.Slib.Input
import Zilkworm.Slib.Payload

namespace Zilkworm.Run

open Lib Rlp Zilkworm.Types State Chain Protocol Execution Slib

/-- Why a stateless block was not accepted. -/
inductive SibError where
  | text (text : String)
  | validation (err : ValidationError)
  deriving DecidableEq, Repr

/-- `network_for_chain_id`. -/
def networkForChainId (chainId : U64) : Option String :=
  if chainId = 1 then some "Amsterdam"
  else if chainId = 0x1a62c8cb6 then some "glamsterdam-devnet-7"
  else if chainId = 0x1a6a8cc6e then some "glamsterdam-devnet-8"
  else if chainId = 11155111 then some "sepolia"
  else none

/-- The witness headers chain by parent hash. -/
def contiguous (keccak256 : Bytes → Bytes32) (ancestors : List BlockHeader) : Bool :=
  (ancestors.zip ancestors.tail).all fun e => e.2.parentHash = e.1.hash keccak256

/-- The members of `StateTransition` a stateless run outputs, with the payload and the block it is
about. -/
structure SibRun where
  chainId : U64 := 0
  schemaId : ℕ := 0
  newPayloadRequestRoot : Bytes32 := zeroBytes32
  blockHash : Bytes32 := zeroBytes32
  preStateRoot : Bytes32 := zeroBytes32
  postStateRoot : Bytes32 := zeroBytes32
  successfulValidation : Bool := false
  /-- The value `run_sib` returns. -/
  result : U64 := 0
  payload : Option SlibPayload := none
  block : Option Block := none
  error : Option SibError := none

section

variable (host : Host) (stale : UInt8)

/-- The witness headers, decoded, contiguous and ending at the block's parent. -/
def witnessAncestors (headers : List Bytes) (block : Block) : Except SibError (List BlockHeader) := do
  match headers.mapM fun h => (decodeBlockHeader .prohibit h).toOption.map (·.1) with
  | none => .error (.text "ERROR: witness header RLP decode failed")
  | some ancestors =>
    rejectIf (contiguous host.keccak256 ancestors = false)
      (.text "ERROR: witness headers are not contiguous")
    rejectIf ((ancestors.getLast?).map (·.hash host.keccak256) ≠ some block.header.parentHash)
      (.text "ERROR: parent header is not the last witness header")
    return ancestors

/-- The text for a block whose root or reads the accept check rejects. -/
def acceptFailed (hs : HashState) (header : BlockHeader) : String :=
  let expected := toHex header.stateRoot.val
  let missing := hs.missingCount.toNat
  let unconfirmed := hs.unconfirmedReadCount.toNat
  s!"ERROR: HashState accept failed: expected state_root {expected}, missing_count={missing} " ++
    s!"unconfirmed_read_count={unconfirmed}"

/-- `run_sib_block`, with the state it leaves. -/
def runSibBlock (blob : Bytes) (block : Block) (config : ChainConfig) (prevRoot : Bytes32) :
    Except SibError HashState :=
  match runSlib host.keccak256 blob {} prevRoot with
  | (none, _) => .error (.text "ERROR: malformed statelessInputBytes")
  | (some (_, .malformed), _) => .error (.text
      "ERROR: malformed witness: a trie path over 64 nibbles or a node that does not decode")
  | (some (_, .missingNode), _) => .error (.text "ERROR: the witness lacks the pre-state root node")
  | (some (input, .ok), hs) => do
    let ancestors ← witnessAncestors host input.headers block
    -- the constructor of `Blockchain` inserts the parent once more
    let hs := (ancestors ++ [ancestors.getLast?.getD {}]).foldl
      (fun hs h => HashState.insertHeader host.keccak256 h hs) hs
    match insertBlock host false config block hs with
    | (.error e, _) => .error (.validation e)
    | (.ok (), hs) =>
      match checkRootHashstate host.keccak256 stale hs prevRoot block.header.stateRoot with
      | .error _ => .error (.text (acceptFailed hs block.header))
      | .ok () => .ok hs

/-- The part of `run_sib` behind the decoding of its input: the block is built, checked against
what the payload claims of it, and run. -/
def runSibPayload (blob : Bytes) (headers : List Bytes) (payload : SlibPayload) (run : SibRun) :
    SibRun :=
  let reject (text : String) : SibRun := { run with error := some (.text text) }
  match (networkForChainId run.chainId).bind fun n => findNetwork (asciiBytes n) with
  | none => reject s!"block rejected: unknown chain id {run.chainId.toNat}"
  | some config =>
    match slibPayloadBlock host.keccak256 host.sha256 payload with
    | none => reject "block rejected: transaction decode"
    | some block =>
      let run := { run with block := some block }
      let reject (text : String) : SibRun := { run with error := some (.text text) }
      match engineMismatch host.keccak256 block ⟨payload.blockHash, payload.versionedHashes⟩ with
      | some why => reject s!"block rejected: {why} mismatch"
      | none =>
        if kMaxRlpBlockSize < block.length ∧
            .osaka ≤ config.revision block.header.number block.header.timestamp then
          reject "block rejected: exceeds kMaxRlpBlockSize"
        else
          match headers.getLast? with
          | none => reject "block rejected: witness carries no headers"
          | some last =>
            match decodeBlockHeader .prohibit last with
            | .error _ => reject "block rejected: parent header is not the last witness header"
            | .ok (parent, _) =>
              if parent.hash host.keccak256 ≠ block.header.parentHash then
                reject "block rejected: parent header is not the last witness header"
              else
                let run := { run with preStateRoot := parent.stateRoot }
                match runSibBlock host stale blob block config parent.stateRoot with
                | .error e => { run with error := some e }
                | .ok _ =>
                  { run with
                    successfulValidation := true
                    postStateRoot := block.header.stateRoot
                    result := block.header.gasUsed }

/-- **`run_sib`**. -/
def runSib (blob : Bytes) : SibRun :=
  match decodeStatelessInput blob with
  | none => { error := some (.text "ERROR: malformed statelessInputBytes") }
  | some dec =>
    match decodeSlibPayload dec.newPayloadRequest with
    | none => { error := some (.text "ERROR: malformed statelessInputBytes") }
    | some payload =>
      runSibPayload host stale blob dec.headers payload
        { chainId := dec.chainId
          schemaId := kSlibSchemaId
          newPayloadRequestRoot := slibPayloadRoot host.sha256 payload
          blockHash := payload.blockHash
          payload := some payload }

end

end Zilkworm.Run
