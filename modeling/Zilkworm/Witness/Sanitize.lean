/-
# `DirectState::sanitize`

`core/state_zz/direct_state.cpp`, `mphf_entries_tile` and `sanitize`: four passes over a
blob the constructor accepted.  The entries of both maps tile their data sections; every
code payload hashes to its key; a walk over the account map binds each record's code,
clears its flags, fills its cached leaf encoding, copies the slots' initial values and
marks the record; a walk over the address-hash table clears the mark of the record each
entry names; a last sweep finds no mark left.

The model is the build that leaves the code store as it is (`ZILK_SEAL_CODE_STORE` off;
sealing writes code-store bytes only).  `verified` is the reader's handshake: the code
entries it has hashed already.  A rejection the source makes without a message has the
empty text.
-/
import Zilkworm.Witness.PreState
import Mathlib.Data.List.Sort

namespace Zilkworm.Witness

open Lib Rlp Zilkworm.Types

variable (keccak256 : Bytes → Bytes32) (code : Option MphfMap) (b : Bytes) (p : ℕ)

/-- `FlatKv::kPayloadOffset`. -/
def kPayloadOffset : ℕ := 32

/-- The offsets are where a builder would have put them: each where the one before ends.  Returns
where the last one ends. -/
def tilesFrom (len : ℕ → ℕ) : (expect : ℕ) → List ℕ → Option ℕ
  | expect, [] => some expect
  | expect, off :: offs =>
    if off ≠ expect then none
    else tilesFrom len (off + mphfAlign8 ((8 + len off) % 2 ^ 32)) offs

/-- `mphf_entries_tile`. -/
def mphfEntriesTile (map : Option MphfMap) : Bool :=
  match map with
  | none => true
  | some m =>
    if m.hdr.nKeys = 0 then true
    else tilesFrom (m.entryLen b) 8
      (((m.forEachOffset b).map (· % 2 ^ 32)).insertionSort (· ≤ ·)) = some m.hdr.dataSize

/-- The sections lie in builder order. -/
def sectionsInOrder (m : PreStateMeta) (blobSize : ℕ) : Prop :=
  preStateMetaSize ≤ m.prestateOffset ∧ m.prestateOffset ≤ m.addrHashesOffset ∧
  m.addrHashesOffset + m.nAccounts * addrHashEntrySize ≤ m.blockHashesOffset ∧
  m.blockHashesOffset + m.nBlockHashes * blockHashEntrySize ≤ m.codeStoreOffset ∧
  m.codeStoreOffset + m.codeStoreSize ≤ blobSize

instance (m : PreStateMeta) (n : ℕ) : Decidable (sectionsInOrder m n) :=
  inferInstanceAs (Decidable (_ ∧ _ ∧ _ ∧ _ ∧ _))

/-- A code entry's payload hashes to its key, or the reader has checked that it does. -/
def codeEntryOk (verified : ℕ → Bool) (b : Bytes) (m : MphfMap)
    (off : ℕ) : Bool :=
  verified off ||
    (keccak256 (slice b (m.data + off + 8 + kPayloadOffset) (m.entryLen b off - kPayloadOffset))).val =
      slice b (m.data + off + 8) 32

/-- `encode_account_into`: the leaf `[nonce, balance, storage root, code hash]`, and the offset of
the storage root's tag in it. -/
def encodeAccountInto (nonce : U64) (balance : U256) (codeHash storageRoot : Bytes) : Bytes × ℕ :=
  let payloadLen := lengthUint nonce + lengthUint balance + (32 + 1) + (32 + 1)
  let lenBe := toBigCompact payloadLen
  let head := UInt8.ofNat (0xF7 + lenBe.length) :: lenBe ++ encodeUint nonce ++ encodeUint balance
  (head ++ 0xA0 :: storageRoot ++ 0xA0 :: codeHash, head.length)

/-- The leaf encoding of the record at `p`, with its own storage root. -/
def accLeaf : Bytes × ℕ :=
  encodeAccountInto (accNonce b p) (accBalance b p) (accCodeHash b p) (accStorageRoot b p)

/-- `Account::rlp_into_cache` of the record at `p`. -/
def rlpIntoCache : Bytes :=
  let (leaf, srootOff) := accLeaf b p
  let b := writeAt b (p + 140) leaf
  writeAt b (p + 21) [UInt8.ofNat leaf.length, UInt8.ofNat srootOff]

/-- The slot loop of `handle_account_body`, for `n` slots from slot `s` on: the keys ascend, and
each slot starts from its initial value. -/
def copySlots : (n s : ℕ) → Bytes → Except String Bytes
  | 0, _, b => .ok b
  | n + 1, s, b => do
    rejectIf (0 < s ∧ ¬ slotKey b (slotPos p (s - 1)) < slotKey b (slotPos p s))
      "sanitize: witness slot keys not in ascending order"
    copySlots n (s + 1) (writeAt b (slotPos p s + 64) (slotInitial b (slotPos p s)))

/-- Binds the record's code to its entry in the code store. -/
def bindCode : Except String Bytes :=
  if 0 < accCodeStoreLen b p then
    match code.bind fun m => (m.find b 0 (hashKey8 (accCodeHash b p)) (accCodeHash b p)).map (m, ·) with
    | none => .error "sanitize: code missing for non-zero code_len account"
    | some (m, body, len) => do
      rejectIf (len < kPayloadOffset ∨ len - kPayloadOffset < accCodeStoreLen b p)
        "sanitize: code_len exceeds code store entry size"
      return writeAt b (p + 128) (toLe 4 (body - m.data) ++ toLe 4 (len - kPayloadOffset))
  else .ok b

/-- The flags `handle_account_body` resets; `modified` is the mark the next pass clears. -/
def resetFlags : Bytes :=
  let b := writeAt b (p + 20) [0]
  let b := writeAt b (p + 23) [1]
  writeAt b (p + 252) (toLe 4 0)

/-- `handle_account_body` of the record at `p`. -/
def handleAccountBody : Except String Bytes := do
  let b ← bindCode code b p
  let b := rlpIntoCache (resetFlags b p) p
  copySlots p (accSlotCount b p) 0 b

/-- The walk over the account map's records. -/
def accountWalk (m : MphfMap) : List ℕ → Bytes → Except String Bytes
  | [], b => .ok b
  | off :: offs, b => do
    let b ← handleAccountBody code b (m.data + off + 8)
    accountWalk m offs b

/-- The walk over `n` entries of the address-hash table from entry `i` on; `data` and `dataSize`
are the account map's data section (zero for a null map). -/
def addrHashWalk (pm : PreStateMeta) (data dataSize : ℕ) :
    (n i : ℕ) → (prevHash : Option Bytes) → Bytes → Except String Bytes
  | 0, _, _, b => .ok b
  | n + 1, i, prevHash, b => do
    let e := addrHashEntry b pm i
    rejectIf (∃ h ∈ prevHash, ¬ h < e.addrHash) ""
    rejectIf ((keccak256 e.addr).val ≠ e.addrHash) ""
    rejectIf (dataSize < e.entryOffset + 8 + accountSize) ""
    let p := data + e.entryOffset + 8
    rejectIf (accAddr b p ≠ e.addr) ""
    addrHashWalk pm data dataSize n (i + 1) (some e.addrHash) (writeAt b (p + 23) [0])

/-- The mark of every record has been cleared. -/
def marksCleared (m : MphfMap) : Bool :=
  (m.forEachOffset b).all fun off => ¬ accModified b (m.data + off + 8)

/-- The records' part of `sanitize`, for a blob with accounts. -/
def sanitizeAccounts (pm : PreStateMeta)
    (m : MphfMap) (b : Bytes) : Except String Bytes := do
  let b ← accountWalk code m (m.forEachOffset b) b
  let b ← addrHashWalk keccak256 pm m.data m.hdr.dataSize pm.nAccounts 0 none b
  rejectIf (marksCleared b m = false) ""
  return b

/-- `DirectState::sanitize`: the blob it leaves, or the text of the check that failed. -/
def sanitize (verified : ℕ → Bool) (s : PreState) :
    Except String Bytes := do
  rejectIf (¬ sectionsInOrder s.stateMeta s.bytes.length)
    "sanitize: pre-state sections overlap or out of builder order"
  rejectIf (¬ (mphfEntriesTile s.bytes s.preStateMap ∧ mphfEntriesTile s.bytes s.codeStoreMap))
    "sanitize: witness MphfMap entries overlap or leave gaps"
  rejectIf (∃ m ∈ s.codeStoreMap, (m.forEachOffset s.bytes).all
      (codeEntryOk keccak256 verified s.bytes m) = false)
    "sanitize: code-hash mismatch in witness bundle "
  match s.preStateMap with
  | none => .ok s.bytes
  | some m => sanitizeAccounts keccak256 s.codeStoreMap s.stateMeta m s.bytes

end Zilkworm.Witness
