/-
# What an accepted stateless input is

A stateless run that reports success has decoded its input, rebuilt the block of the payload,
found the claimed hash to be that block's, and run the block on the state of its parent, the
last of the witness headers.
-/
import Zilkworm.Run.Stateless
import Zilkworm.Execution.Invariant

namespace Zilkworm.Run

open Lib Rlp Zilkworm.Types State Chain Protocol Execution Slib

/-- **An accepted stateless input**: what `run_sib` has established of the block it reports. -/
structure SibAccepted (host : Host) (stale : UInt8) (blob : Bytes) (dec : DecodedStatelessInput)
    (payload : SlibPayload) (block : Block) (parent : BlockHeader) : Prop where
  decoded : decodeStatelessInput blob = some dec
  request : decodeSlibPayload dec.newPayloadRequest = some payload
  built : slibPayloadBlock host.keccak256 host.sha256 payload = some block
  engine : engineMismatch host.keccak256 block ⟨payload.blockHash, payload.versionedHashes⟩ = none
  /-- The parent is the last of the witness headers. -/
  anchored : ∃ last rest, dec.headers.getLast? = some last ∧
    decodeBlockHeader .prohibit last = .ok (parent, rest)
  parentHash : parent.hash host.keccak256 = block.header.parentHash
  ran : ∃ config hs, ((networkForChainId dec.chainId).bind fun n => findNetwork (asciiBytes n)) =
      some config ∧ runSibBlock host stale blob block config parent.stateRoot = .ok hs
  run : runSib host stale blob =
    { chainId := dec.chainId
      schemaId := kSlibSchemaId
      newPayloadRequestRoot := slibPayloadRoot host.sha256 payload
      blockHash := payload.blockHash
      preStateRoot := parent.stateRoot
      postStateRoot := block.header.stateRoot
      successfulValidation := true
      result := block.header.gasUsed
      payload := some payload
      block := some block }

/-- Success is reported at one place only. -/
theorem runSibPayload_accepted {host : Host} {stale : UInt8} {blob : Bytes} {headers : List Bytes}
    {payload : SlibPayload} {run : SibRun} (hfresh : run.successfulValidation = false)
    (h : (runSibPayload host stale blob headers payload run).successfulValidation = true) :
    ∃ config block last parent rest hs,
      ((networkForChainId run.chainId).bind fun n => findNetwork (asciiBytes n)) = some config ∧
      slibPayloadBlock host.keccak256 host.sha256 payload = some block ∧
      engineMismatch host.keccak256 block ⟨payload.blockHash, payload.versionedHashes⟩ = none ∧
      headers.getLast? = some last ∧ decodeBlockHeader .prohibit last = .ok (parent, rest) ∧
      parent.hash host.keccak256 = block.header.parentHash ∧
      runSibBlock host stale blob block config parent.stateRoot = .ok hs ∧
      runSibPayload host stale blob headers payload run =
        { run with
          block := some block
          preStateRoot := parent.stateRoot
          postStateRoot := block.header.stateRoot
          successfulValidation := true
          result := block.header.gasUsed } := by
  have hno : run.successfulValidation ≠ true := by simp [hfresh]
  unfold runSibPayload at h ⊢
  dsimp only at h ⊢
  split at h
  · exact absurd h hno
  next config hnet =>
  split at h
  · exact absurd h hno
  next block hblock =>
  split at h
  · exact absurd h hno
  next heng =>
  split at h
  · exact absurd h hno
  next hsize =>
  split at h
  · exact absurd h hno
  next last hlast =>
  split at h
  · exact absurd h hno
  next parent rest hpar =>
  split at h
  · exact absurd h hno
  next hhash =>
  split at h
  · exact absurd h hno
  next hs hran =>
  refine ⟨config, block, last, parent, rest, hs, hnet, hblock, heng, hlast, hpar, not_not.mp hhash,
    hran, ?_⟩
  rw [if_neg hsize, if_neg hhash]

/-- **What a successful run has established.** -/
theorem runSib_accepted {host : Host} {stale : UInt8} {blob : Bytes}
    (h : (runSib host stale blob).successfulValidation = true) :
    ∃ dec payload block parent, SibAccepted host stale blob dec payload block parent := by
  rcases hdec : decodeStatelessInput blob with _ | dec
  · simp [runSib, hdec] at h
  rcases hpay : decodeSlibPayload dec.newPayloadRequest with _ | payload
  · simp [runSib, hdec, hpay] at h
  simp only [runSib, hdec, hpay] at h
  obtain ⟨config, block, last, parent, rest, hs, hnet, hblock, heng, hlast, hpar, hhash, hran, hrun⟩ :=
    runSibPayload_accepted rfl h
  refine ⟨dec, payload, block, parent, hdec, hpay, hblock, heng, ⟨last, rest, hlast, hpar⟩, hhash,
    ⟨config, hs, hnet, hran⟩, ?_⟩
  simp only [runSib, hdec, hpay]
  exact hrun

end Zilkworm.Run
