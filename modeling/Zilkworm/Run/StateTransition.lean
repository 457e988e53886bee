/-
# The run over an envelope of bundles

`run_one_bundle` and `run_mfbd` of `dev/state_transition.cpp`, in the `DirectState` build.  A
bundle is one chain of blocks that run one after another on the bundle's state; an envelope
is a header and the bundles, whose values go into one set of public values.

A run that fails keeps the text it prints last and the public values it has by then.  What a
later theorem has to speak of is kept in the run as well, though the source does not need it
again: the blocks accepted, the bundles that went through, and the spans handed to the
loader.  A span that does not lie in the envelope ends the model's run: what the loader would
find behind the envelope is not the program's to say.
-/
import Zilkworm.Execution.Processor
import Zilkworm.Run.CheckRoot
import Zilkworm.Run.FlatBundle

namespace Zilkworm.Run

open Lib Rlp Zilkworm.Types Witness State Chain Protocol Execution

/-- What a run finds besides its envelope and the functions it calls: where the envelope lies, the
code entries of a pre-state that the reader has hashed already, and the byte of a placeholder. -/
structure Machine where
  envelopeAddr : ℕ := 0
  verified : PreState → ℕ → Bool := fun _ _ => false
  stale : UInt8 := 0

/-- Why a run failed. -/
inductive RunError where
  | text (text : String)
  | validation (block : ℕ) (err : ValidationError)
  deriving DecidableEq, Repr

/-- A failed run: the reason, and the public values it leaves. -/
structure Failure where
  reason : RunError
  transition : StateTransition

/-- `kRunFailure`. -/
def kRunFailure : U64 := BitVec.allOnes 64

/-- `kRunSkipped`. -/
def kRunSkipped : U64 := BitVec.allOnes 64 - 1

/-- `to_hex`. -/
def toHex (b : Bytes) : String :=
  String.ofList (b.flatMap fun x => [Nat.digitChar (x.toNat / 16), Nat.digitChar (x.toNat % 16)])

/-! ## Checks of a bundle -/

/-- `witness_headers_valid`. -/
def witnessHeadersValid (keccak256 : Bytes → Bytes32) (bundle : FlatBundle) : Except String Unit := do
  rejectIf (bundle.ancestorsWellFormed = false) "ERROR: malformed witness header"
  if bundle.engineRecords = [] ∨ bundle.ancestorRlps = [] then .ok ()
  else do
    let hashes := bundle.ancestorRlps.map keccak256
    rejectIf (((bundle.ancestors.drop 1).zip hashes).all (fun e => e.1.parentHash = e.2) = false)
      "ERROR: witness headers are not contiguous"
    rejectIf (some (bundle.genesis.header.hash keccak256) ≠ hashes.getLast?)
      "ERROR: parent header is not the last witness header"

/-- `engine_mismatch`: the claimed block hash, and the versioned hashes of the blob transactions
one after another. -/
def engineMismatch (keccak256 : Bytes → Bytes32) (block : Block) (r : BlockEngineRecord) :
    Option String :=
  let blobs := block.transactions.filter fun t => t.type = .blob
  if block.header.hash keccak256 ≠ r.blockHash then some "block hash"
  else if (blobs.flatMap fun t => t.blobVersionedHashes.flatMap Subtype.val) ≠ r.versionedHashes then
    some "versioned hashes"
  else none

/-- Block `i` of the bundle is flagged as expected to be invalid. -/
def FlatBundle.expectInvalid (bundle : FlatBundle) (i : ℕ) : Bool :=
  bundle.blockFlags.getD i 0 &&& kBlockFlagExpectInvalid ≠ 0

/-! ## One bundle -/

/-- The state of `run_one_bundle` between two blocks, with the blocks accepted so far. -/
structure BundleRun where
  direct : DirectState
  transition : StateTransition
  cumulativeGas : U64 := 0
  firstRootCheck : Bool := true
  accepted : List Block := []

section

variable (host : Host) (m : Machine) (config : ChainConfig) (bundle : FlatBundle) (i : ℕ)

/-- A block that was not accepted: passed over if it was expected to be invalid, else the end of
the run. -/
def BundleRun.reject (r : BundleRun) (expectInvalid : Bool) (reason : RunError) :
    Except Failure BundleRun :=
  if expectInvalid then .ok r else .error ⟨reason, r.transition⟩

/-- The checks of a block before it runs: the block, or the text for a rejected one. -/
def decodeChecked (blockRlp : Bytes) :
    Except String Block := do
  match decodeBlock .prohibit blockRlp with
  | .error _ => .error s!"ERROR: block {i} RLP decode failed"
  | .ok (block, _) =>
    rejectIf (kMaxRlpBlockSize < blockRlp.length ∧
        .osaka ≤ config.revision block.header.number block.header.timestamp)
      s!"ERROR: block {i} RLP size exceeds kMaxRlpBlockSize"
    match (bundle.engineRecords[i]?.join).bind (engineMismatch host.keccak256 block) with
    | some why => .error s!"ERROR: block {i} {why} mismatch"
    | none => .ok block

/-- The root check of a block that ran, and what its outcome does to the run. -/
def settleBlock (expectInvalid : Bool)
    (block : Block) (r : BundleRun) : Except Failure BundleRun :=
  let header := block.header
  let rev := config.revision header.number header.timestamp
  let first := r.firstRootCheck
  let (rootOk, t, s) := if first then checkRoot host.keccak256 m.stale header rev r.transition r.direct
    else
      let (ok, s) := checkRootNewBlock host.keccak256 header r.direct
      (ok, r.transition, s)
  match rootOk with
  | .error _ =>
    -- a rejected block anchors nothing in the public values
    let t' := if r.transition.preRootSet then t
      else { t with preRootSet := false, preStateRoot := zeroBytes32 }
    if expectInvalid then .ok { r with direct := s, transition := t', firstRootCheck := false }
    else
      let expected := toHex header.stateRoot.val
      .error ⟨.text s!"ERROR: State Root Mismatch at block {i}: expected {expected}", t⟩
  | .ok () =>
    if first ∧ 1 < bundle.blockRlps.length ∧ s.stateRootHash host.keccak256 ≠ some header.stateRoot then
      .error ⟨.text s!"ERROR: the witness is not the whole state of block {i}", t⟩
    else if expectInvalid then
      .error ⟨.text s!"ERROR: expected-invalid block {i} was accepted", t⟩
    else
      .ok { direct := s.insertHeader host.keccak256 header
            transition := { t with
              postStateRoot := header.stateRoot
              blockHash := header.hash host.keccak256 }
            cumulativeGas := r.cumulativeGas + header.gasUsed
            firstRootCheck := false
            accepted := r.accepted ++ [block] }

/-- A block that passed the checks before it: its execution, the checks of what it read and the
link to the block before it. -/
def executeChecked (expectInvalid : Bool)
    (block : Block) (r : BundleRun) : Except Failure BundleRun :=
  let (err, s) := insertBlock host false config block r.direct.resetWitnessIncomplete
  let r := { r with direct := s }
  if s.witnessIncomplete ∨ s.ancestorMissing then
    r.reject expectInvalid (.text (if s.ancestorMissing then
      s!"ERROR: block {i} read the hash of an ancestor the witness does not hold"
      else s!"ERROR: block {i} needs data the witness omits"))
  else
    match err with
    | .error e => r.reject expectInvalid (.validation i e)
    | .ok () =>
      if r.firstRootCheck = false ∧ block.header.parentHash ≠ r.transition.blockHash then
        .error ⟨.text s!"ERROR: block {i} does not extend the previous block", r.transition⟩
      else settleBlock host m config bundle i expectInvalid block r

/-- One round of the loop of `run_one_bundle`. -/
def runBlock (blockRlp : Bytes) (r : BundleRun) :
    Except Failure BundleRun :=
  let expectInvalid := bundle.expectInvalid i
  if expectInvalid = true ∧ i + 1 < bundle.blockRlps.length then
    .error ⟨.text "ERROR: a block expected invalid is not the last of its bundle", r.transition⟩
  else
    match if i = 0 then witnessHeadersValid host.keccak256 bundle else .ok () with
    | .error text => r.reject expectInvalid (.text text)
    | .ok () =>
      match decodeChecked host config bundle i blockRlp with
      | .error text => r.reject expectInvalid (.text text)
      | .ok block => executeChecked host m config bundle i expectInvalid block r

/-- The loop over the blocks, from block `i` on. -/
def runBlocks :
    (i : ℕ) → List Bytes → BundleRun → Except Failure BundleRun
  | _, [], r => .ok r
  | i, b :: bs, r => do
    let r ← runBlock host m config bundle i b r
    runBlocks (i + 1) bs r

/-- The state a bundle's blocks start from: the sanitized witness, the ancestors' headers and the
genesis header. -/
def startState (blob : Bytes) : DirectState :=
  let s := DirectState.ofBlob bundle.direct blob bundle.nodeStore
  let s := bundle.ancestors.foldl (fun s h => s.insertHeader host.keccak256 h) s
  let s := { s with
    multiBlock := 1 < bundle.blockRlps.length
    requireBlockHashHeaders := bundle.engineRecords ≠ [] }
  s.insertHeader host.keccak256 bundle.genesis.header

/-- **`run_one_bundle`**, with the configuration the bundle's network has. -/
def runOneBundle (t : StateTransition) : Except Failure (ChainConfig × BundleRun) :=
  match sanitize host.keccak256 (m.verified bundle.direct) bundle.direct with
  | .error _ => .error ⟨.text "ERROR: Witness sanitize failed (identity↔hash mismatch)", t⟩
  | .ok blob =>
    match findNetwork bundle.network with
    | none => .error ⟨.text "ERROR: unknown network in flat bundle", t⟩
    | some config => do
      let r ← runBlocks host m config bundle 0 bundle.blockRlps
        { direct := startState host bundle blob, transition := { t with chainId := config.chainId } }
      return (config, r)

/-! ## The envelope -/

/-- `kInputHeaderSizeMFBD`. -/
def kInputHeaderSizeMFBD : ℕ := 16

/-- `kInputVersionMFBD`. -/
def kInputVersionMFBD : ℕ := 1

/-- A span of the envelope's memory: its offset from the envelope's start and its size. -/
structure Span where
  off : ℕ
  size : ℕ
  deriving DecidableEq, Repr

/-- The span from `cursor` to the end; a difference below zero wraps to 64 bits. -/
def Span.tail (cursor envelopeSize : ℕ) : Span :=
  ⟨cursor, if cursor ≤ envelopeSize then envelopeSize - cursor else envelopeSize + 2 ^ 64 - cursor⟩

/-- The span lies in the envelope and reaches to its end. -/
def Span.ToEnd (s : Span) (envelopeSize : ℕ) : Prop :=
  s.off ≤ envelopeSize ∧ s.off + s.size = envelopeSize

instance (s : Span) (n : ℕ) : Decidable (s.ToEnd n) := inferInstanceAs (Decidable (_ ∧ _))

/-- A bundle that went through: where it starts, its configuration and the blocks it added. -/
structure BundleTrace where
  cursor : ℕ
  bundle : FlatBundle
  config : ChainConfig
  accepted : List Block

/-- How a run ends. -/
inductive Outcome where
  | finished (gas : U64)
  | failed (reason : RunError)
  | aborted (text : String)
  | outOfEnvelope
  deriving DecidableEq, Repr

/-- A run of `run_mfbd`: the loop's variables, and the spans and bundles it went through. -/
structure MfbdRun where
  cursor : ℕ := kInputHeaderSizeMFBD
  cumulativeGas : U64 := 0
  transition : StateTransition := {}
  spans : List Span := []
  bundles : List BundleTrace := []

/-- One round of the loop of `run_mfbd`. -/
def runBundle (envelope : Bytes) (run : MfbdRun) : Except (Outcome × MfbdRun) MfbdRun :=
  let span := Span.tail run.cursor envelope.length
  let run := { run with spans := run.spans ++ [span] }
  if envelope.length < run.cursor then .error (.outOfEnvelope, run)
  else
    match loadFlatBundle (m.envelopeAddr + run.cursor) (envelope.drop run.cursor) with
    | .error (.aborted text) => .error (.aborted text, run)
    | .error (.rejected _) => .error (.failed (.text "ERROR: MFBD bundle parse failed"), run)
    | .ok fb =>
      match runOneBundle host m fb run.transition with
      | .error f => .error (.failed f.reason, { run with transition := f.transition })
      | .ok (config, r) =>
        .ok { cursor := align8 (run.cursor + fb.blobSize)
              cumulativeGas := run.cumulativeGas + r.cumulativeGas
              transition := r.transition
              spans := run.spans
              bundles := run.bundles ++ [⟨run.cursor, fb, config, r.accepted⟩] }

/-- The loop of `run_mfbd`, for `n` more bundles. -/
def runBundles (envelope : Bytes) : (n : ℕ) → MfbdRun → Except (Outcome × MfbdRun) MfbdRun
  | 0, run => .ok run
  | n + 1, run => do
    let run ← runBundle host m envelope run
    runBundles envelope n run

/-- **`run_mfbd`**: how the run ends, and the run. -/
def runMfbd (envelope : Bytes) : Outcome × MfbdRun :=
  if envelope.length < kInputHeaderSizeMFBD then
    (.failed (.text "ERROR: MFBD envelope too small"), {})
  else if u32At envelope 4 ≠ kInputVersionMFBD then
    (.failed (.text "ERROR: MFBD envelope bad version"), {})
  else
    let nBundles := u64At envelope 8
    match runBundles host m envelope nBundles {} with
    | .error e => e
    | .ok run => (.finished (if nBundles = 0 then kRunSkipped else run.cumulativeGas), run)

end

end Zilkworm.Run
