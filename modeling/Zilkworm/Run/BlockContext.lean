/-
# The block context of the EVM

`execution/processor.cpp`: the constructor of `ExecutionProcessor` fills evmone's `BlockInfo` with
casts.  The number, the timestamp, the gas limit and the difficulty become `int64_t`, the base fee
`uint64_t`; the header has 64 bits for the first three and 256 for the others.

Of the five fields only the gas limit is bounded when the header is validated, by `kMaxGasLimit`.
The base fee is compared with the one the parent determines, which has 256 bits itself, and the
difficulty, the number and the timestamp have no upper bound.  The comment over
`slib_payload_block` says that it rejects a base fee above 64 bits; nothing in its body does.
-/
import Zilkworm.Execution.Finalization
import Zilkworm.Execution.GasBounds
import Zilkworm.Slib.Payload

namespace Zilkworm.Run

open Lib Rlp Zilkworm.Types State Chain Protocol Execution Slib

/-- A word read as a signed integer is the number it holds exactly below the sign bit. -/
theorem toInt_eq_toNat_iff (x : U64) : x.toInt = x.toNat ↔ x.toNat < 2 ^ 63 := by
  rw [BitVec.toInt_eq_toNat_cond]
  split <;> omega

/-- A cast to `int64_t` keeps exactly the numbers below the sign bit. -/
theorem toInt_setWidth_iff (x : U256) : (x.setWidth 64).toInt = x.toNat ↔ x.toNat < 2 ^ 63 := by
  rw [BitVec.toInt_eq_toNat_cond, BitVec.toNat_setWidth]
  have hmod := Nat.mod_le x.toNat (2 ^ 64)
  have hlt := Nat.mod_lt x.toNat (show 2 ^ 64 > 0 by decide)
  constructor
  · intro h
    split at h <;> omega
  · intro h
    rw [Nat.mod_eq_of_lt (by omega), if_pos (by omega)]

/-- A cast to `uint64_t` keeps exactly the numbers of 64 bits. -/
theorem toNat_setWidth_iff (x : U256) : (x.setWidth 64).toNat = x.toNat ↔ x.toNat < 2 ^ 64 := by
  rw [BitVec.toNat_setWidth]
  exact Nat.mod_eq_iff_lt (by decide)

/-- The context has the header's values, each field read with the sign it has in `BlockInfo`. -/
structure SeesHeader (info : BlockInfo) (h : BlockHeader) : Prop where
  number : info.number.toInt = h.number.toNat
  timestamp : info.timestamp.toInt = h.timestamp.toNat
  gasLimit : info.gasLimit.toInt = h.gasLimit.toNat
  difficulty : info.difficulty.toInt = h.difficulty.toNat
  baseFee : info.baseFee.toNat = (h.baseFeePerGas.getD 0).toNat

/-- The context of a block has the header's values exactly when each fits its field. -/
theorem seesHeader_iff (config : ChainConfig) (block : Block) :
    SeesHeader (blockInfo config block) block.header ↔
      block.header.number.toNat < 2 ^ 63 ∧ block.header.timestamp.toNat < 2 ^ 63 ∧
      block.header.gasLimit.toNat < 2 ^ 63 ∧ block.header.difficulty.toNat < 2 ^ 63 ∧
      (block.header.baseFeePerGas.getD 0).toNat < 2 ^ 64 := by
  constructor
  · rintro ⟨hnumber, htimestamp, hgas, hdifficulty, hfee⟩
    exact ⟨(toInt_eq_toNat_iff _).mp hnumber, (toInt_eq_toNat_iff _).mp htimestamp,
      (toInt_eq_toNat_iff _).mp hgas, (toInt_setWidth_iff _).mp hdifficulty,
      (toNat_setWidth_iff _).mp hfee⟩
  · rintro ⟨hnumber, htimestamp, hgas, hdifficulty, hfee⟩
    exact ⟨(toInt_eq_toNat_iff _).mpr hnumber, (toInt_eq_toNat_iff _).mpr htimestamp,
      (toInt_eq_toNat_iff _).mpr hgas, (toInt_setWidth_iff _).mpr hdifficulty,
      (toNat_setWidth_iff _).mpr hfee⟩

/-- The block of a payload has the payload's numbers and difficulty zero. -/
theorem slibPayloadBlock_header {keccak256 sha256 : Bytes → Bytes32} {p : SlibPayload} {block : Block}
    (h : slibPayloadBlock keccak256 sha256 p = some block) :
    ∃ body, block.header = payloadHeader keccak256 sha256 p body := by
  unfold slibPayloadBlock at h
  simp only [bind, Option.bind_eq_some_iff] at h
  obtain ⟨txs, -, h⟩ := h
  exact ⟨_, (congrArg Block.header (Option.some.inj h)).symm⟩

/-- A little-endian word of 32 bytes is the number it stands for. -/
theorem toNat_payloadFee (p : SlibPayload) :
    (BitVec.ofNat 256 (leNat p.baseFeePerGas.val)).toNat = leNat p.baseFeePerGas.val := by
  rw [BitVec.toNat_ofNat]
  refine Nat.mod_eq_of_lt ?_
  have h := leNat_lt p.baseFeePerGas.val
  rw [p.baseFeePerGas.property] at h
  exact h

/-- **When the EVM sees the header's values.**  For a block that `insert_block` accepts, on any
state, the number, the timestamp and the difficulty have to be below `2^63` and the base fee below
`2^64`; for the block of a payload, the number, the timestamp and the gas limit of the payload below
`2^63` and its base fee below `2^64`. -/
theorem blockInfo_sees_header_iff (host : Host) (config : ChainConfig) :
    (∀ {σ : Type} [ActiveState host.keccak256 σ] (checkStateRoot : Bool) (block : Block) (s : σ),
      (insertBlock host checkStateRoot config block s).1 = .ok () →
        (SeesHeader (blockInfo config block) block.header ↔
          block.header.number.toNat < 2 ^ 63 ∧ block.header.timestamp.toNat < 2 ^ 63 ∧
          block.header.difficulty.toNat < 2 ^ 63 ∧
          (block.header.baseFeePerGas.getD 0).toNat < 2 ^ 64)) ∧
    (∀ (p : SlibPayload) (block : Block),
      slibPayloadBlock host.keccak256 host.sha256 p = some block →
        (SeesHeader (blockInfo config block) block.header ↔
          p.blockNumber.toNat < 2 ^ 63 ∧ p.timestamp.toNat < 2 ^ 63 ∧ p.gasLimit.toNat < 2 ^ 63 ∧
          leNat p.baseFeePerGas.val < 2 ^ 64)) := by
  constructor
  · intro σ _ checkStateRoot block s hok
    have hgas := gasLimit_lt_of_validated (insertBlock_header hok)
    rw [seesHeader_iff]
    exact ⟨fun ⟨hn, ht, _, hd, hf⟩ => ⟨hn, ht, hd, hf⟩, fun ⟨hn, ht, hd, hf⟩ => ⟨hn, ht, hgas, hd, hf⟩⟩
  · intro p block hblock
    obtain ⟨body, hheader⟩ := slibPayloadBlock_header hblock
    have hfee : (block.header.baseFeePerGas.getD 0).toNat = leNat p.baseFeePerGas.val := by
      rw [hheader]
      exact toNat_payloadFee p
    have hdifficulty : block.header.difficulty.toNat < 2 ^ 63 := by
      rw [hheader]
      exact Nat.two_pow_pos 63
    rw [seesHeader_iff, hfee, hheader] at *
    exact ⟨fun ⟨hn, ht, hg, _, hf⟩ => ⟨hn, ht, hg, hf⟩,
      fun ⟨hn, ht, hg, hf⟩ => ⟨hn, ht, hg, hdifficulty, hf⟩⟩

namespace PlainPayload

/-- A payload without transactions, withdrawals or requests, at a given base fee. -/
def payload (baseFee : ℕ) : SlibPayload where
  parentHash := zeroBytes32
  feeRecipient := zeroAddress
  stateRoot := kEmptyRoot
  receiptsRoot := kEmptyRoot
  logsBloom := FixedBytes.zero 256
  prevRandao := zeroBytes32
  blockNumber := 1
  gasLimit := 30000000
  gasUsed := 0
  timestamp := 12
  extraData := []
  baseFeePerGas := FixedBytes.load 32 (toLe 32 baseFee)
  blockHash := zeroBytes32
  transactions := []
  withdrawals := []
  blobGasUsed := 0
  excessBlobGas := 0
  blockAccessList := [0xc0]
  slotNumber := 1
  versionedHashes := []
  parentBeaconBlockRoot := zeroBytes32
  executionRequests _ := []

/-- Keccak-256 of the one string hashed here, the empty block access list. -/
def keccak256 (b : Bytes) : Bytes32 := if b = [0xc0] then kEmptyListHash else zeroBytes32

/-- SHA-256 of the one string hashed here, no requests. -/
def sha256 (b : Bytes) : Bytes32 :=
  if b = [] then Bytes32.ofNat 0xe3b0c44298fc1c149afbf4c8996fb92427ae41e4649b934ca495991b7852b855
  else zeroBytes32

/-- The block of the payload. -/
def block (baseFee : ℕ) : Block where
  header := payloadHeader keccak256 sha256 (payload baseFee) { withdrawals := some [] }
  withdrawals := some []

end PlainPayload

/-- A base fee of `2^64` is not rejected, and the EVM sees the base fee zero; an accepted block of
difficulty `2^63` has a negative difficulty there. -/
theorem blockInfo_truncates :
    (slibPayloadBlock PlainPayload.keccak256 PlainPayload.sha256 (PlainPayload.payload (2 ^ 64)) =
        some (PlainPayload.block (2 ^ 64)) ∧
      (PlainPayload.block (2 ^ 64)).header.baseFeePerGas = some (2 ^ 64) ∧
      (blockInfo kMainnetConfig (PlainPayload.block (2 ^ 64))).baseFee = 0) ∧
    (insertBlock Minted.host false kShanghaiConfig (Minted.block (2 ^ 63)) Minted.state).1 = .ok () ∧
    (blockInfo kShanghaiConfig (Minted.block (2 ^ 63))).difficulty.toInt = -(2 ^ 63) := by
  refine ⟨⟨?_, by decide +kernel, by decide +kernel⟩, by decide +kernel, by decide +kernel⟩
  rfl

/-- With small numbers the EVM sees both headers as they are. -/
theorem blockInfo_sees_small_headers :
    SeesHeader (blockInfo kShanghaiConfig (Minted.block 0)) (Minted.block 0).header ∧
    SeesHeader (blockInfo kShanghaiConfig (PlainPayload.block 7)) (PlainPayload.block 7).header := by
  have hok : (insertBlock Minted.host false kShanghaiConfig (Minted.block 0) Minted.state).1 =
      .ok () := by decide +kernel
  refine ⟨((blockInfo_sees_header_iff Minted.host kShanghaiConfig).1 false (Minted.block 0)
    Minted.state hok).mpr (by decide +kernel), ?_⟩
  exact ((blockInfo_sees_header_iff
    { Minted.host with keccak256 := PlainPayload.keccak256, sha256 := PlainPayload.sha256 }
    kShanghaiConfig).2 (PlainPayload.payload 7) (PlainPayload.block 7) rfl).mpr (by decide +kernel)

end Zilkworm.Run
