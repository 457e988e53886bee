/-
# The pre-state blob

`core/state_zz/pre_state.hpp` and `validate_prestate_layout` of
`core/state_zz/direct_state.cpp`: a meta header, the account map, the table of address
hashes, the block hashes and the code store, at offsets the producer chose.  The
`DirectState` constructor aborts on a blob the layout check rejects, so a blob that a
`DirectState` stands on carries the proof that it passed.

An account record lies in the account map's data section, behind its entry's length word:
256 bytes of `Account`, then its slots of 96 bytes each.
-/
import Zilkworm.Witness.MphfMap
import Zilkworm.Types.Transaction

namespace Zilkworm.Witness

open Lib Rlp Zilkworm.Types

/-- `sizeof(PreStateMeta)`. -/
def preStateMetaSize : ℕ := 68

/-- `sizeof(Account)`. -/
def accountSize : ℕ := 256

/-- `sizeof(Slot)`. -/
def slotSize : ℕ := 96

/-- `sizeof(AddrHashEntry)`. -/
def addrHashEntrySize : ℕ := 56

/-- `sizeof(BlockHashEntry)`. -/
def blockHashEntrySize : ℕ := 40

/-- `kMagic`, "PRES". -/
def kMagic : ℕ := 0x53455250

/-- `kVersion`. -/
def kVersion : ℕ := 4

/-- `kMphfAddrMapMagic`, "MPHA". -/
def kMphfAddrMapMagic : ℕ := 0x4148504D

/-- `kMphfCodeStoreMagic`, "MPHC". -/
def kMphfCodeStoreMagic : ℕ := 0x4348504D

/-- `kMphfNodeStoreMagic`, "MPHN". -/
def kMphfNodeStoreMagic : ℕ := 0x4E48504D

/-- `PreStateMeta`, without its reserved words. -/
structure PreStateMeta where
  magic : ℕ
  version : ℕ
  nAccounts : ℕ
  nBlockHashes : ℕ
  prestateOffset : ℕ
  addrHashesOffset : ℕ
  blockHashesOffset : ℕ
  codeStoreOffset : ℕ
  codeStoreSize : ℕ
  deriving Repr, DecidableEq

/-- The meta header at the start of the blob. -/
def PreStateMeta.read (b : Bytes) : PreStateMeta where
  magic := u32At b 0
  version := u32At b 4
  nAccounts := u32At b 8
  nBlockHashes := u32At b 12
  prestateOffset := u32At b 16
  addrHashesOffset := u32At b 20
  blockHashesOffset := u32At b 24
  codeStoreOffset := u32At b 28
  codeStoreSize := u32At b 32

/-- The sections of the blob as half-open ranges. -/
def PreStateMeta.sections (m : PreStateMeta) : List (ℕ × ℕ) :=
  [(0, preStateMetaSize),
   (m.prestateOffset, if 0 < m.nAccounts then m.addrHashesOffset else 0),
   (m.addrHashesOffset, m.addrHashesOffset + m.nAccounts * addrHashEntrySize),
   (m.blockHashesOffset, m.blockHashesOffset + m.nBlockHashes * blockHashEntrySize),
   (m.codeStoreOffset, m.codeStoreOffset + m.codeStoreSize)]

/-- Two non-empty ranges that share a byte. -/
def rangesOverlap (a b : ℕ × ℕ) : Bool := a.1 < a.2 ∧ b.1 < b.2 ∧ a.1 < b.2 ∧ b.1 < a.2

/-- `bound_typed`: a table of `count` elements, aligned and inside the blob.  The product of two
32-bit numbers does not overflow 64 bits. -/
def boundTyped (blobSize off count elemSize align : ℕ) : Prop :=
  off % align = 0 ∧ boundsWithinRegion off (count * elemSize) blobSize

instance (s o c e a : ℕ) : Decidable (boundTyped s o c e a) :=
  inferInstanceAs (Decidable (_ ∧ _))

/-! ## Account records -/

section Account

variable (b : Bytes) (p : ℕ)

/-- `Account::addr` of the record at buffer offset `p`. -/
def accAddr : Bytes := slice b p 20

/-- `Account::deleted`. -/
def accDeleted : Bool := byteAt b (p + 20) ≠ 0

/-- `Account::acc_rlp_len`. -/
def accRlpLen : ℕ := (byteAt b (p + 21)).toNat

/-- `Account::acc_rlp_sroot_off`. -/
def accRlpSrootOff : ℕ := (byteAt b (p + 22)).toNat

/-- `Account::modified`. -/
def accModified : Bool := byteAt b (p + 23) ≠ 0

/-- `Account::nonce`. -/
def accNonce : U64 := BitVec.ofNat 64 (u64At b (p + 24))

/-- `Account::balance`, stored native-endian. -/
def accBalance : U256 := BitVec.ofNat 256 (leNat (slice b (p + 32) 32))

/-- `Account::code_hash`. -/
def accCodeHash : Bytes := slice b (p + 64) 32

/-- `Account::storage_root`. -/
def accStorageRoot : Bytes := slice b (p + 96) 32

/-- `Account::code_store_offset`. -/
def accCodeStoreOffset : ℕ := u32At b (p + 128)

/-- `Account::code_store_len`. -/
def accCodeStoreLen : ℕ := u32At b (p + 132)

/-- `Account::slot_count`. -/
def accSlotCount : ℕ := u32At b (p + 136)

/-- `Account::acc_rlp_buf`. -/
def accRlpBuf : Bytes := slice b (p + 140) 112

/-- `Account::absent_reads`. -/
def accAbsentReads : ℕ := u32At b (p + 252)

/-- The buffer offset of slot `s` of the record at `p`. -/
def slotPos (s : ℕ) : ℕ := p + accountSize + slotSize * s

end Account

/-- `Slot::key` of the slot at buffer offset `q`. -/
def slotKey (b : Bytes) (q : ℕ) : Bytes := slice b q 32

/-- `Slot::initial`. -/
def slotInitial (b : Bytes) (q : ℕ) : Bytes := slice b (q + 32) 32

/-- `Slot::current`. -/
def slotCurrent (b : Bytes) (q : ℕ) : Bytes := slice b (q + 64) 32

/-- `AddrHashEntry`. -/
structure AddrHashEntry where
  addrHash : Bytes
  addr : Bytes
  entryOffset : ℕ
  deriving Repr, DecidableEq

/-- Entry `i` of the address-hash table. -/
def addrHashEntry (b : Bytes) (m : PreStateMeta) (i : ℕ) : AddrHashEntry :=
  let q := m.addrHashesOffset + addrHashEntrySize * i
  ⟨slice b q 32, slice b (q + 32) 20, u32At b (q + 52)⟩

/-! ## The layout check -/

/-- `check_entry`: the account and its slots fit in the body its length word declares. -/
def checkEntry (b : Bytes) (m : MphfMap) (off : ℕ) : Except String Unit := do
  rejectIf (off % 8 ≠ 0) "DirectState: addr-map entry misaligned for Account"
  let bodyLen := m.entryLen b off
  rejectIf (bodyLen < accountSize) "DirectState: addr-map entry body smaller than Account"
  rejectIf (bodyLen - accountSize < accSlotCount b (m.data + off + 8) * slotSize)
    "DirectState: addr-map entry slots exceed body"

/-- The part of `validate_prestate_layout` about the account map. -/
def validateAddrMap (b : Bytes) (m : PreStateMeta) : Except String Unit :=
  if 0 < m.nAccounts then do
    rejectIf (m.addrHashesOffset ≤ m.prestateOffset) "DirectState: prestate MphfMap region empty"
    validateMphf 20 0 b m.prestateOffset (m.addrHashesOffset - m.prestateOffset) kMphfAddrMapMagic
    rejectIf ((MphfMap.reset b m.prestateOffset).hdr.nKeys = 0)
      "DirectState: prestate MphfMapHeader has zero keys but n_accounts > 0"
  else .ok ()

/-- `validate_prestate_layout` of a blob that starts at address `addr`. -/
def validatePrestateLayout (addr : ℕ) (b : Bytes) : Except String Unit := do
  rejectIf (b.length < preStateMetaSize) "DirectState: blob smaller than PreStateMeta"
  rejectIf (addr % 8 ≠ 0) "DirectState: blob start not 8-byte aligned"
  let m := PreStateMeta.read b
  rejectIf (m.magic ≠ kMagic) "DirectState: bad PreStateMeta magic"
  rejectIf (m.version ≠ kVersion) "DirectState: bad PreStateMeta version"
  rejectIf (¬ boundTyped b.length m.addrHashesOffset m.nAccounts addrHashEntrySize 8)
    "DirectState: addr_hashes section out of range"
  rejectIf (¬ boundTyped b.length m.blockHashesOffset m.nBlockHashes blockHashEntrySize 8)
    "DirectState: block_hashes section out of range"
  validateAddrMap b m
  validateMphf 32 0 b m.codeStoreOffset m.codeStoreSize kMphfCodeStoreMagic
  rejectIf (¬ m.sections.Pairwise (fun a b => rangesOverlap a b = false))
    "DirectState: prestate sections overlap"
  if 0 < m.nAccounts then
    let map := MphfMap.reset b m.prestateOffset
    (map.forEachOffset b).forM (checkEntry b map)
  else .ok ()

/-- `validate_nodestore_layout` of a node store that starts at address `addr`. -/
def validateNodestoreLayout (addr : ℕ) (ns : Bytes) : Except String Unit :=
  if ns = [] then .ok ()
  else do
    rejectIf (addr % 8 ≠ 0) "DirectState: node store not 8-byte aligned"
    rejectIf (2 ^ 32 ≤ ns.length) "DirectState: node store larger than an MphfMap region"
    validateMphf 32 0 ns 0 ns.length kMphfNodeStoreMagic

/-- **A blob the `DirectState` constructor accepts**: its bytes, the address they lie at, and the
layout check passed.  Every other blob aborts the program. -/
structure PreState where
  addr : ℕ
  bytes : Bytes
  valid : validatePrestateLayout addr bytes = .ok ()

namespace PreState

/-- `pre_state_meta_`. -/
def stateMeta (s : PreState) : PreStateMeta := PreStateMeta.read s.bytes

/-- `pre_state_map_`, null without accounts. -/
def preStateMap (s : PreState) : Option MphfMap :=
  if 0 < s.stateMeta.nAccounts then some (MphfMap.reset s.bytes s.stateMeta.prestateOffset) else none

/-- `code_store_map_`, null without a code store. -/
def codeStoreMap (s : PreState) : Option MphfMap :=
  if 0 < s.stateMeta.codeStoreSize then some (MphfMap.reset s.bytes s.stateMeta.codeStoreOffset)
  else none

end PreState

end Zilkworm.Witness
