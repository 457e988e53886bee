/-
# Building a pre-state blob

`core/state_zz/direct_state_builder.cpp`: `DirectState::build_blob_from_accounts` lays out the
blob of a list of accounts.  The records go into a perfect-hash map by address, each followed
by its slots in key order; the table of address hashes names each record by the offset of its
entry; the block hashes and a code store the caller built follow.

Offsets and sizes are plain numbers: the blob is meant to be smaller than `2^32` bytes.  The
fields of `Account` that the builder leaves zero (the flags, the cached leaf and the list of
absent reads) are not part of what it is given.
-/
import Zilkworm.Witness.MphfBuilder
import Zilkworm.Witness.PreState

namespace Zilkworm.Witness

open Lib Rlp Zilkworm.Types

/-- `DirectState::AccountInfo`. -/
structure DirectAccountInfo where
  addr : Address
  nonce : U64
  balance : U256
  codeHash : Bytes32
  storageRoot : Bytes32
  codeStoreLen : UInt32
  storage : List (Bytes32 × Bytes32)
  deriving DecidableEq

/-- `BlockHashEntry`. -/
structure BlockHashEntry where
  blockNumber : U64
  blockHash : Bytes32
  deriving DecidableEq

/-- The bytes of a `Slot` that starts from its value. -/
def slotBytes (kv : Bytes32 × Bytes32) : Bytes := kv.1.val ++ kv.2.val ++ kv.2.val

/-- The bytes of an `Account` with `slotCount` slots. -/
def accountBytes (info : DirectAccountInfo) (slotCount : ℕ) : Bytes :=
  info.addr.val ++ List.replicate 4 0 ++ toLe 8 info.nonce.toNat ++ toLe 32 info.balance.toNat ++
    info.codeHash.val ++ info.storageRoot.val ++ toLe 4 0 ++ toLe 4 info.codeStoreLen.toNat ++
    toLe 4 slotCount ++ List.replicate 112 0 ++ toLe 4 0

/-- The storage in key order. -/
def sortedStorage (storage : List (Bytes32 × Bytes32)) : List (Bytes32 × Bytes32) :=
  storage.insertionSort fun x y => x.1.val ≤ y.1.val

/-- `account_info_to_pre_account_bytes`. -/
def accountInfoToPreAccountBytes (info : DirectAccountInfo) : Bytes :=
  accountBytes info info.storage.length ++ (sortedStorage info.storage).flatMap slotBytes

/-- `addr_key8` as a short key. -/
def addrKey8Of (addr : Bytes) : UInt64 := UInt64.ofNat (addrKey8 addr)

/-- `entry_offset_for_addr` in the region `mphf`, empty without accounts. -/
def entryOffsetForAddr (mphf addr : Bytes) : ℕ :=
  if mphf = [] then 0
  else
    let m := MphfMap.reset mphf 0
    let k8 := addrKey8Of addr
    let offSingleton := m.slotOffset mphf (m.indexLookup mphf k8)
    if offSingleton ≠ 0 ∧ slice mphf (m.data + offSingleton + 8) 20 = addr then offSingleton
    else if 0 < m.hdr.collisionsSize then
      let sidecar := m.collisions mphf
      let start :=
        lowerBound (fun i => (sidecar.getD i (0, 0)).1 < k8.toNat) m.nCollisions 0 m.nCollisions
      (((sidecar.drop start).takeWhile (·.1 = k8.toNat)).find? fun e =>
        slice mphf (m.data + e.2 + 8) 20 = addr).elim 0 fun e => e.2
    else 0

/-- The bytes of an `AddrHashEntry`. -/
def AddrHashEntry.bytes (e : AddrHashEntry) : Bytes := e.addrHash ++ e.addr ++ toLe 4 e.entryOffset

/-- The bytes of a `BlockHashEntry`. -/
def BlockHashEntry.bytes (e : BlockHashEntry) : Bytes := toLe 8 e.blockNumber.toNat ++ e.blockHash.val

/-- The table of address hashes, in hash order. -/
def addrHashTable (keccak256 : Bytes → Bytes32) (accounts : List DirectAccountInfo) (mphf : Bytes) :
    List AddrHashEntry :=
  (accounts.map fun info => AddrHashEntry.mk (keccak256 info.addr.val).val info.addr.val
    (entryOffsetForAddr mphf info.addr.val)).insertionSort fun x y => x.addrHash ≤ y.addrHash

/-- The sections of a blob: meta, account map, address hashes, block hashes and code store. -/
structure BlobSections where
  mphf : Bytes
  addrHashes : List AddrHashEntry
  blockHashes : List BlockHashEntry
  codeStore : Bytes

namespace BlobSections

variable (s : BlobSections)

/-- `prestate_offset`. -/
def prestateOffset : ℕ := align8 preStateMetaSize

/-- `addr_hashes_offset`. -/
def addrHashesOffset : ℕ := prestateOffset + align8 s.mphf.length

/-- `block_hashes_offset`. -/
def blockHashesOffset : ℕ := s.addrHashesOffset + align8 (addrHashEntrySize * s.addrHashes.length)

/-- `code_store_offset`. -/
def codeStoreOffset : ℕ := s.blockHashesOffset + align8 (blockHashEntrySize * s.blockHashes.length)

/-- The meta header, with its reserved words. -/
def metaBytes : Bytes :=
  [kMagic, kVersion, s.addrHashes.length, s.blockHashes.length, prestateOffset, s.addrHashesOffset,
    s.blockHashesOffset, s.codeStoreOffset, s.codeStore.length].flatMap (toLe 4) ++ List.replicate 32 0

/-- The blob. -/
def bytes : Bytes :=
  padded8 s.metaBytes ++ padded8 s.mphf ++ padded8 (s.addrHashes.flatMap AddrHashEntry.bytes) ++
    padded8 (s.blockHashes.flatMap BlockHashEntry.bytes) ++ padded8 s.codeStore

end BlobSections

/-- The account map of the records, in address order; empty without accounts. -/
def accountMap (accounts : List DirectAccountInfo) : Option Bytes :=
  if accounts = [] then some []
  else
    (accounts.foldl (fun b info => b.add (addrKey8Of info.addr.val) (accountInfoToPreAccountBytes info))
    ({} : MphfBuilder)).finalize kMphfAddrMapMagic {}

/-- `DirectState::build_blob_from_accounts`; no bytes if the account map could not be built. -/
def buildBlobFromAccounts (keccak256 : Bytes → Bytes32) (accounts : List DirectAccountInfo)
    (blockHashes : List BlockHashEntry) (codeStoreBlob : Bytes) : Option Bytes := do
  let accounts := accounts.insertionSort fun x y => x.addr.val ≤ y.addr.val
  let mphf ← accountMap accounts
  let sections : BlobSections :=
    { mphf := mphf
      addrHashes := addrHashTable keccak256 accounts mphf
      blockHashes := blockHashes.insertionSort fun x y => x.blockNumber.toNat ≤ y.blockNumber.toNat
      codeStore := codeStoreBlob }
  return if accounts ≠ [] ∧ mphf = [] then [] else sections.bytes

end Zilkworm.Witness
