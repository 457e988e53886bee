/-
# `DirectState`

`core/state_zz/direct_state.hpp` and `direct_state.cpp`, without `USE_HASH_KEY`: the state
that runs on a flat witness.  What the blob fixes (where a lookup leads, the table of
address hashes, the code and the trie nodes) is a `Witness`; what a run changes is the
rest of `DirectState`.  Records are named by the offset of their entry in the address
map's data section, as `account_at_offset` names them.

Unordered maps are association lists.
-/
import Zilkworm.State.Account
import Zilkworm.Trie.HashBuilder
import Mathlib.Data.List.AList

namespace Zilkworm.State

open Lib Rlp Zilkworm.Types Witness

/-- An entry of the address-hash table. -/
structure AddrHash where
  addrHash : Bytes32
  addr : Address
  entryOffset : ℕ
  deriving DecidableEq

/-- **What a sanitized witness fixes.** -/
structure WitnessView where
  /-- `pre_state_map_.for_each_offset`. -/
  offsets : List ℕ
  /-- `pre_state_map_.find`: the offset of an address's entry, which carries the address. -/
  find : Address → Option ℕ
  find_injective : ∀ {a b off}, find a = some off → find b = some off → a = b
  addrHashes : List AddrHash
  /-- `code_entry_by_hash_`: the place of a code's body and the code. -/
  findCode : Bytes32 → Option (ℕ × Bytes)
  /-- `code_store_sealed_`: the store's keys are gone, and only the index finds code. -/
  codeStoreSealed : Bool := false
  /-- `code_for`: so many bytes of the payload of the body at an offset. -/
  codeAt : (offset len : ℕ) → Bytes
  /-- `node_store_map_.find`: the payload stored under a node hash, not yet verified. -/
  findNode : Bytes32 → Option Bytes

/-- The witness without accounts, code or nodes. -/
def WitnessView.empty : WitnessView where
  offsets := []
  find _ := none
  find_injective h := by cases h
  addrHashes := []
  findCode _ := none
  codeAt _ _ := []
  findNode _ := none

/-- `WipedStorage`. -/
structure WipedStorage where
  slots : List Slot
  storageRoot : Bytes32
  absentReads : List Bytes32
  deriving DecidableEq

/-- A map from hashes. -/
abbrev HashMap (α : Type) := AList (fun _ : Bytes32 => α)

/-- A map from addresses. -/
abbrev AddressMap (α : Type) := AList (fun _ : Address => α)

/-- `created_code_`, by the first eight bytes of the code's hash, and `created_code_collisions_`, by
the whole hash, for a code whose eight bytes another one holds. -/
structure CreatedCode where
  byKey8 : AList (fun _ : ℕ => Bytes32 × Bytes) := ∅
  collisions : HashMap Bytes := ∅

/-- The code created under a hash. -/
def CreatedCode.find (c : CreatedCode) (h : Bytes32) : Option Bytes :=
  match c.byKey8.lookup (hashKey8 h.val) with
  | some (fullHash, code) => if fullHash = h then some code else c.collisions.lookup h
  | none => c.collisions.lookup h

/-- Keeps a created code under its hash, unless one is kept there. -/
def CreatedCode.add (h : Bytes32) (code : Bytes) (c : CreatedCode) : CreatedCode :=
  match c.byKey8.lookup (hashKey8 h.val) with
  | none => { c with byKey8 := c.byKey8.insert (hashKey8 h.val) (h, code) }
  | some (fullHash, _) =>
    if fullHash = h ∨ h ∈ c.collisions then c
    else { c with collisions := c.collisions.insert h code }

/-- `DirectState`. -/
structure DirectState where
  witness : WitnessView
  records : ℕ → Account
  createdAccounts : AddressMap Account := ∅
  overflowSlots : AddressMap (HashMap Bytes32) := ∅
  wipedStorage : List WipedStorage := []
  createdCode : CreatedCode := {}
  touched : List Address := []
  headers : HashMap BlockHeader := ∅
  ancestorMissing : Bool := false
  requireBlockHashHeaders : Bool := false
  /-- The walk of `get_block_hash` so far, for the block of number `ancestorsNumber` whose parent
  hash comes first. -/
  ancestors : List Bytes32 := []
  ancestorsNumber : U64 := 0
  /-- The headers held do not lead past the last of `ancestors`. -/
  ancestorsEnd : Bool := false
  witnessIncomplete : Bool := false
  multiBlock : Bool := false
  changedAddressesJournal : List Address := []

/-- `kCreatedCodeOffset`. -/
def kCreatedCodeOffset : ℕ := 2 ^ 32 - 1

namespace DirectState

variable (keccak256 : Bytes → Bytes32) (s : DirectState) (addr : Address) (pa : Account)

/-- `lookup_account_`: the witness's record, else a created one. -/
def lookupAccount : Option Account :=
  match s.witness.find addr with
  | some off => some (s.records off)
  | none => s.createdAccounts.lookup addr

/-- Writes the record of `addr` back to where `lookup_account_` finds it. -/
def storeAccount (s : DirectState) : DirectState :=
  match s.witness.find addr with
  | some off => { s with records := Function.update s.records off pa }
  | none => { s with createdAccounts := s.createdAccounts.insert addr pa }

/-- `observe_account_` and `find_or_create_account`: a total miss leaves a deleted record
behind. -/
def observeAccount (s : DirectState) : Account × DirectState :=
  match s.lookupAccount addr with
  | some pa => (pa, s)
  | none => (Account.absent addr,
      { s with createdAccounts := s.createdAccounts.insert addr (Account.absent addr) })

/-- The overflow slots of an address. -/
def overflowSlotsFor : HashMap Bytes32 :=
  (s.overflowSlots.lookup addr).getD ∅

/-- `journal_address_changed`. -/
def journalAddressChanged (s : DirectState) : DirectState :=
  if s.multiBlock then { s with changedAddressesJournal := s.changedAddressesJournal.insert addr }
  else s

/-! ## Reads -/

/-- `note_absent_read_`. -/
def noteAbsentRead (key : Bytes32) (s : DirectState) : DirectState :=
  if pa.storageRoot = kEmptyRoot then s
  else s.storeAccount addr { pa with absentReads := key :: pa.absentReads }

/-- `read_storage`. -/
def readStorage (key : Bytes32) (s : DirectState) : Bytes32 × DirectState :=
  let (pa, s) := s.observeAccount addr
  if pa.slots ≠ [] ∧ pa.deleted then (zeroBytes32, s)
  else
    match (findSlot pa.slots key).bind fun i => pa.slots[i]? with
    | some slot => (slot.current, s)
    | none =>
      match (s.overflowSlotsFor addr).lookup key with
      | some v => (v, s)
      | none => (zeroBytes32, if pa.deleted then s else s.noteAbsentRead addr pa key)

/-- `has_storage` of a live record. -/
def hasStorage : Bool :=
  pa.storageRoot ≠ kEmptyRoot || pa.slots.any (fun slot => slot.current ≠ zeroBytes32) ||
    (s.overflowSlotsFor addr).entries ≠ []

/-- `DirectStateView::get_account`. -/
def viewAccount (s : DirectState) : Option AccountInfo × DirectState :=
  let (pa, s) := s.observeAccount addr
  (if pa.deleted then none else some (pa.info (s.hasStorage addr pa)), s)

/-- `has_storage` of an address. -/
def hasStorageAt (s : DirectState) : Bool × DirectState :=
  let (pa, s) := s.observeAccount addr
  (!pa.deleted && s.hasStorage addr pa, s)

/-- `read_code` of a record. -/
def readCodeOf (s : DirectState) : Bytes × DirectState :=
  if pa.deleted then ([], s)
  else if pa.codeStoreLen ≠ 0 ∧ pa.codeStoreOffset ≠ kCreatedCodeOffset then
    (s.witness.codeAt pa.codeStoreOffset pa.codeStoreLen, s)
  else if pa.codeHash = kEmptyHash then ([], s)
  else
    match (s.witness.findCode pa.codeHash).map (·.2) <|> s.createdCode.find pa.codeHash with
    | some code => (code, s)
    | none => ([], { s with witnessIncomplete := true })

/-- `read_code`. -/
def readCode (s : DirectState) : Bytes × DirectState :=
  let (pa, s) := s.observeAccount addr
  s.readCodeOf pa

/-- `read_account`: a live record; a miss leaves nothing behind. -/
def readAccount : Option Account :=
  (s.lookupAccount addr).filter fun pa => !pa.deleted

/-- `get_balance`. -/
def getBalance : U256 := ((s.readAccount addr).map (·.balance)).getD 0

/-- `get_nonce`. -/
def getNonce : U64 := ((s.readAccount addr).map (·.nonce)).getD 0

/-- `is_deleted`. -/
def isDeleted : Bool :=
  ((s.lookupAccount addr).map (·.deleted)).getD true

/-- `is_empty_account`. -/
def isEmptyAccount : Bool :=
  ((s.readAccount addr).map Account.isEmpty).getD false

/-- `is_dead`. -/
def isDead : Bool := s.isDeleted addr || s.isEmptyAccount addr

/-! ## Mutators -/

/-- `revive_if_deleted`. -/
def reviveIfDeleted (s : DirectState) : Account × DirectState :=
  if pa.deleted then (pa.revived, { s with overflowSlots := s.overflowSlots.erase addr }) else (pa, s)

/-- `find_or_create_account`, then `revive_if_deleted`. -/
def liveAccount (s : DirectState) : Account × DirectState :=
  let (pa, s) := s.observeAccount addr
  reviveIfDeleted addr pa s

/-- The frame of the field mutators: the record brought to life, the field set if it changes, the
address touched. -/
def setField (changes : Account → Bool) (set : Account → Account)
    (s : DirectState) : DirectState :=
  let (pa, s) := s.liveAccount addr
  let s :=
    if changes pa then
      (s.storeAccount addr
        { set pa with modified := true, accRlpSrootOff := 0 }).journalAddressChanged addr
    else s.storeAccount addr pa
  { s with touched := s.touched.insert addr }

/-- `set_balance`. -/
def setBalance (value : U256) : DirectState → DirectState :=
  setField addr (fun pa => pa.balance ≠ value) (fun pa => { pa with balance := value })

/-- `add_to_balance`. -/
def addToBalance (addend : U256) : DirectState → DirectState :=
  setField addr (fun _ => addend ≠ 0) (fun pa => { pa with balance := pa.balance + addend })

/-- `subtract_from_balance`. -/
def subtractFromBalance (subtrahend : U256) : DirectState → DirectState :=
  setField addr (fun _ => subtrahend ≠ 0) (fun pa => { pa with balance := pa.balance - subtrahend })

/-- `set_nonce`. -/
def setNonce (nonce : U64) : DirectState → DirectState :=
  setField addr (fun pa => pa.nonce ≠ nonce) (fun pa => { pa with nonce := nonce })

/-- `note_wiped_storage_`. -/
def noteWipedStorage (s : DirectState) : Account × DirectState :=
  if pa.slots = [] ∧ pa.absentReads = [] then (pa, s)
  else ({ pa with absentReads := [] },
    { s with wipedStorage := s.wipedStorage ++ [⟨pa.slots, pa.storageRoot, pa.absentReads⟩] })

/-- The part of `destruct` about the witness's record: its storage goes once. -/
def destructRecord (s : DirectState) : DirectState :=
  match s.witness.find addr with
  | none => s
  | some off =>
    let (pa, s) := if (s.records off).deleted then (s.records off, s)
      else s.noteWipedStorage (s.records off)
    { s with records := Function.update s.records off { pa with deleted := true } }

/-- The part of `destruct` about a created record. -/
def destructCreated (s : DirectState) : DirectState :=
  match s.createdAccounts.lookup addr with
  | none => s
  | some pa => { s with createdAccounts := s.createdAccounts.insert addr { pa with deleted := true } }

/-- `destruct`: flags the witness's record and a created twin of it. -/
def destruct (s : DirectState) : DirectState :=
  let s := (s.destructRecord addr).destructCreated addr
  { s with
    overflowSlots := s.overflowSlots.erase addr
    touched := s.touched.insert addr }.journalAddressChanged addr

/-- `destruct_dead_among`. -/
def destructDeadAmong (addrs : List Address) (s : DirectState) : DirectState :=
  addrs.foldl (fun s addr => if s.isDead addr then s.destruct addr else s) s

/-- `set_account_from_diff`. -/
def setAccountFromDiff (nonce : U64) (balance : U256) (pa : Account) : Account :=
  if pa.nonce ≠ nonce ∨ pa.balance ≠ balance then
    { pa with nonce := nonce, balance := balance, modified := true, accRlpSrootOff := 0 }
  else pa

/-- `set_storage_slot`: into the witness's slot, else into the overflow slots, which hold no
zero. -/
def setStorageSlot (key value : Bytes32) (pa : Account) (s : DirectState) :
    Account × DirectState :=
  let pa := { pa with modified := true }
  match findSlot pa.slots key with
  | some i => ({ pa with slots := pa.slots.modify i fun slot => { slot with current := value } }, s)
  | none =>
    if value = zeroBytes32 then
      match s.overflowSlots.lookup addr with
      | none => (pa, s)
      | some slots =>
        let slots := slots.erase key
        (pa, { s with
          overflowSlots := if slots.entries = [] then s.overflowSlots.erase addr
            else s.overflowSlots.insert addr slots })
    else
      (pa, { s with overflowSlots := s.overflowSlots.insert addr ((s.overflowSlotsFor addr).insert
        key value) })

/-- The storage of an account that code is deployed to is wiped. -/
def wipeStorage (s : DirectState) : Account × DirectState :=
  let (pa, s) := s.noteWipedStorage pa
  ({ pa with slots := [], storageRoot := kEmptyRoot },
    { s with overflowSlots := s.overflowSlots.erase addr })

/-- `apply_code_diff`; the guests take a code hash the diff carries as it is. -/
def applyCodeDiff (code : Bytes)
    (codeHash : Option Bytes32) (pa : Account) (s : DirectState) : Account × DirectState :=
  if code = [] then
    ({ pa with codeHash := kEmptyHash, codeStoreLen := 0, modified := true, accRlpSrootOff := 0 }, s)
  else
    let (pa, s) := if isCodeDelegated code then (pa, s) else s.wipeStorage addr pa
    let h := codeHash.getD (keccak256 code)
    let pa := { pa with
      codeHash := h, codeStoreLen := code.length % 2 ^ 32, modified := true, accRlpSrootOff := 0 }
    -- a sealed store is not searched: what it carries is kept a second time
    match if s.witness.codeStoreSealed then none else s.witness.findCode h with
    | some (offset, _) => ({ pa with codeStoreOffset := offset }, s)
    | none =>
      ({ pa with codeStoreOffset := kCreatedCodeOffset },
        { s with createdCode := s.createdCode.add h code })

/-- `apply_state_diff` of one modified account. -/
def applyModified (m : ModifiedAccount) : DirectState :=
  let (pa, s) := s.liveAccount m.addr
  let s := s.journalAddressChanged m.addr
  let (pa, s) := match m.code with
    | none => (pa, s)
    | some code => s.applyCodeDiff keccak256 m.addr code m.codeHash pa
  let pa := setAccountFromDiff m.nonce m.balance pa
  let (pa, s) := m.modifiedStorage.foldl (fun (pa, s) (k, v) => s.setStorageSlot m.addr k v pa) (pa, s)
  s.storeAccount m.addr pa

/-- `apply_state_diff`. -/
def applyStateDiff (diff : StateDiff) (s : DirectState) : DirectState :=
  let s := diff.modifiedAccounts.foldl (applyModified keccak256) s
  diff.deletedAccounts.foldl (fun s a => (s.journalAddressChanged a).destruct a) s

/-! ## Headers -/

/-- `read_header`: by the hash alone. -/
def readHeader (_blockNum : U64) (blockHash : Bytes32) : Option BlockHeader :=
  s.headers.lookup blockHash

/-- `insert_header`: the walk is dropped, as the header may lead it further. -/
def insertHeader (header : BlockHeader) (s : DirectState) : DirectState :=
  { s with headers := s.headers.insert (header.hash keccak256) header, ancestors := [] }

/-- The walk is kept for the block that asks; another block starts its own. -/
def startWalk (header : BlockHeader) (s : DirectState) : DirectState :=
  if s.ancestors = [] ∨ s.ancestorsNumber ≠ header.number ∨ s.ancestors.head? ≠ some header.parentHash
  then
    { s with ancestors := [header.parentHash], ancestorsNumber := header.number, ancestorsEnd := false }
  else s

/-- The loop of `get_block_hash`, which has `missing` hashes to find.  It stops, with `false`, where
the headers held do not lead on. -/
def extendWalk : (missing : ℕ) → DirectState → Bool × DirectState
  | 0, s => (true, s)
  | missing + 1, s =>
    match if s.ancestorsEnd then none else s.headers.lookup (s.ancestors.getLastD zeroBytes32) with
    | none => (false, { s with ancestorsEnd := true })
    | some h => extendWalk missing { s with ancestors := s.ancestors ++ [h.parentHash] }

/-- `get_block_hash`. -/
def getBlockHash (header : BlockHeader) (n : U64) (s : DirectState) : Bytes32 × DirectState :=
  if header.number ≤ n then (zeroBytes32, s)
  else
    let depth := (header.number - 1 - n).toNat
    let s := s.startWalk header
    let (found, s) := extendWalk (depth + 1 - s.ancestors.length) s
    if found = false then (zeroBytes32, { s with ancestorMissing := true })
    else
      let hash := s.ancestors.getD depth zeroBytes32
      if s.requireBlockHashHeaders ∧ hash ∉ s.headers then
        (zeroBytes32, { s with ancestorMissing := true })
      else (hash, s)

/-- `reset_witness_incomplete`. -/
def resetWitnessIncomplete : DirectState :=
  { s with witnessIncomplete := false, ancestorMissing := false }

/-! ## The state root -/

/-- `zeroless_view`. -/
def zerolessView (v : Bytes32) : Bytes := v.val.dropWhile (· = 0)

/-- The entries of a `std::map` in the order of its keys. -/
def ascending {V : Type} (m : HashMap V) : List (Sigma fun _ : Bytes32 => V) :=
  m.entries.insertionSort fun a b => a.1.val ≤ b.1.val

/-- The leaves of a `std::map` the given pairs were assigned to one after another, in key order. -/
def sortedLeaves (pairs : List (Bytes32 × Bytes)) : List (Bytes × Bytes) :=
  (ascending (pairs.foldl (fun (m : HashMap Bytes) p => m.insert p.1 p.2) ∅)).map fun e =>
    (Trie.unpackNibbles e.1.val, e.2)

/-- `live` of `account_storage_root`.  Of the record's slots with one key the first counts, since
`emplace` keeps what is there; a slot in `overflow_slots_` replaces it. -/
def liveSlots : HashMap Bytes32 :=
  let recorded : HashMap Bytes32 := match s.witness.find addr with
    | none => ∅
    | some off =>
      let pa := s.records off
      if pa.deleted then ∅
      else pa.slots.foldl (fun m slot =>
        if slot.current = zeroBytes32 ∨ slot.key ∈ m then m else m.insert slot.key slot.current) ∅
  (s.overflowSlotsFor addr).entries.foldl (fun m e => m.insert e.1 e.2) recorded

/-- `account_storage_root`: the live slots are walked in the order of their keys. -/
def accountStorageRoot : Bytes32 :=
  let live := ascending (s.liveSlots addr)
  if live = [] then kEmptyRoot
  else Trie.rootOfLeaves keccak256 (sortedLeaves (live.map fun e =>
    (keccak256 e.1.val, encodeBytes (zerolessView e.2))))

/-- `state_root_hash`. -/
def stateRootHash : Option Bytes32 :=
  let records := s.witness.offsets.map s.records
  let created : List Account := s.createdAccounts.entries.map fun e => { e.2 with addr := e.1 }
  let live : List Account := (records ++ created).filter fun pa => !pa.deleted
  if live = [] then some kEmptyRoot
  else some (Trie.rootOfLeaves keccak256 (sortedLeaves (live.map fun pa =>
    (keccak256 pa.addr.val, pa.rlp (s.accountStorageRoot keccak256 pa.addr)))))

end DirectState

end Zilkworm.State
