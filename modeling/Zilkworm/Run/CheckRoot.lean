/-
# The state root of a block

`check_root` and `check_root_new_block` of `dev/state_transition.cpp`, without
`USE_HASH_KEY`.  The first block of a bundle is checked by a walk of the witness tries: every
record of the witness and every record the block created goes into the walk of the account
trie, with what it claims its pre-value to be, and the slots of each go into a walk of its
storage trie.  A later block's root is rebuilt from all the records there are.

The lists of absent reads are sorted by a fold of their keys before repeats are dropped; the
updates they become are sorted by hash, so the model drops repeats without sorting.  A check
that fails without a text has the empty one.  `stale` is the byte a placeholder's reference
holds when nothing has written it (`ChildRef.bytes`).
-/
import Zilkworm.State.DirectBackend
import Zilkworm.State.DirectLoad
import Zilkworm.Trie.GridMpt

namespace Zilkworm.Run

open Lib Rlp Zilkworm.Types State Trie Chain

/-- The members of `StateTransition` that a run of bundles leaves as public values. -/
structure StateTransition where
  preStateRoot : Bytes32 := zeroBytes32
  postStateRoot : Bytes32 := zeroBytes32
  blockHash : Bytes32 := zeroBytes32
  chainId : U64 := 0
  preRootSet : Bool := false
  deriving DecidableEq

/-- The anchor of `check_root`: the first one in a run is kept. -/
def StateTransition.anchor (root : Bytes32) (t : StateTransition) : StateTransition :=
  if t.preRootSet then t else { t with preStateRoot := root, preRootSet := true }

section

variable (keccak256 : Bytes → Bytes32) (stale : UInt8) (s : DirectState)

/-- The walk over the nodes of a `DirectState`. -/
def walkContext : WalkContext where
  keccak256 := keccak256
  findNodeRlp := s.witness.findNodeRlp keccak256
  stale := stale
  prevalueCheck := true

/-! ## Storage walks -/

/-- The value of a slot as the storage trie holds it; zero is the deletion. -/
def slotRlp (v : Bytes32) : Bytes := encodeBytes (DirectState.zerolessView v)

/-- `absent_read_keys`. -/
def absentReadKeys (reads : List Bytes32) (written : HashMap Bytes32) : List Bytes32 :=
  reads.dedup.filter fun key => key ∉ written

/-- `emplace_absent_read`. -/
def absentUpdate (key : Bytes32) : TrieUpdate := ⟨keccak256 key.val, [0x80], []⟩

/-- The update of a slot of the witness: its initial value, and its current one if it changed. -/
def slotUpdate (modified : Bool) (slot : Slot) : TrieUpdate where
  key := keccak256 slot.key.val
  initialValue := slotRlp slot.initial
  currentValue := if modified ∧ slot.initial ≠ slot.current then slotRlp slot.current else []

/-- The update of a slot the witness does not carry. -/
def overflowUpdate (key value : Bytes32) : TrieUpdate := ⟨keccak256 key.val, [], slotRlp value⟩

/-- `sort_trie_nodes`. -/
def sortUpdates (updates : List TrieUpdate) : List TrieUpdate :=
  updates.insertionSort fun a b => a.key.val ≤ b.key.val

/-- The updates of the walk of a wiped storage, all read-only. -/
def wipedUpdates (wiped : WipedStorage) : List TrieUpdate :=
  sortUpdates (wiped.slots.map (slotUpdate keccak256 false) ++
    (absentReadKeys wiped.absentReads ∅).map (absentUpdate keccak256))

/-- `wiped_storage_bound`. -/
def wipedStorageBound (wiped : WipedStorage) : Bool :=
  Grid.calcRootFromUpdates (walkContext keccak256 stale s) wiped.storageRoot
    (wipedUpdates keccak256 wiped) = some wiped.storageRoot

/-- The updates of a live account's storage. -/
def storageUpdates (addr : Address) (pa : Account) (modified : Bool) :
    List TrieUpdate :=
  let created := s.overflowSlotsFor addr
  sortUpdates (pa.slots.map (slotUpdate keccak256 modified) ++
    created.entries.map (fun e => overflowUpdate keccak256 e.1 e.2) ++
    (absentReadKeys pa.absentReads created).map (absentUpdate keccak256))

/-- The storage root of a live account after the block: by a walk if there is anything to bind
or to write, else the one the record has. -/
def storageRootAfter (addr : Address) (pa : Account) (modified : Bool) :
    Except String Bytes32 :=
  if pa.slots = [] ∧ (s.overflowSlotsFor addr).entries = [] ∧ pa.absentReads = [] then .ok pa.storageRoot
  else
    let storageRoot := if pa.storageRoot = zeroBytes32 then kEmptyRoot else pa.storageRoot
    match Grid.calcRootFromUpdates (walkContext keccak256 stale s) storageRoot
        (storageUpdates keccak256 s addr pa modified) with
    | none => .error "ERROR: storage trie walk failed"
    | some walked =>
      if modified then .ok walked
      else if walked ≠ storageRoot then
        .error "ERROR: storage walk of an unmodified account left its root"
      else .ok storageRoot

/-! ## The walk of the account trie -/

/-- The update of a record of the witness: deleted, read or written. -/
def existingUpdate (e : AddrHash) : Except String TrieUpdate :=
  let pa := s.records e.entryOffset
  if pa.deleted then .ok ⟨e.addrHash, pa.accRlp, [0x80]⟩
  else do
    let storageRoot ← storageRootAfter keccak256 stale s e.addr pa pa.modified
    return ⟨e.addrHash, pa.accRlp, if pa.modified then pa.rlp storageRoot else []⟩

/-- The update of a created record: absent, or written.  No slots stand behind such a record. -/
def createdUpdate (hash : Bytes32) (addr : Address) (pa : Account) :
    Except String TrieUpdate :=
  if pa.deleted then .ok ⟨hash, [], []⟩
  else do
    let storageRoot ← storageRootAfter keccak256 stale s addr { pa with slots := [] } true
    return ⟨hash, [], pa.rlp storageRoot⟩

/-- A created record with the hash of its address. -/
structure CreatedEntry where
  addrHash : Bytes32
  addr : Address
  account : Account

/-- `created_acc_hashes`, in hash order. -/
def createdEntries : List CreatedEntry :=
  (s.createdAccounts.entries.map fun e => ⟨keccak256 e.1.val, e.1, e.2⟩).insertionSort
    fun a b => a.addrHash.val ≤ b.addrHash.val

/-- The merge of the two lists of records, in hash order; `fuel` is their length. -/
def accountUpdates :
    (fuel : ℕ) → List AddrHash → List CreatedEntry → Except String (List TrieUpdate)
  | 0, _, _ => .ok []
  | _ + 1, [], [] => .ok []
  | fuel + 1, e :: es, [] => do
    let u ← existingUpdate keccak256 stale s e
    return u :: (← accountUpdates fuel es [])
  | fuel + 1, [], c :: cs => do
    let u ← createdUpdate keccak256 stale s c.addrHash c.addr c.account
    return u :: (← accountUpdates fuel [] cs)
  | fuel + 1, e :: es, c :: cs =>
    if e.addrHash = c.addrHash then .error "Created and existing hashes clash"
    else if e.addrHash.val < c.addrHash.val then do
      let u ← existingUpdate keccak256 stale s e
      return u :: (← accountUpdates fuel es (c :: cs))
    else do
      let u ← createdUpdate keccak256 stale s c.addrHash c.addr c.account
      return u :: (← accountUpdates fuel (e :: es) cs)

/-- Every update of the walk of the account trie, the wiped storages bound first. -/
def checkedUpdates : Except String (List TrieUpdate) := do
  rejectIf (s.wipedStorage.all (wipedStorageBound keccak256 stale s) = false)
    "ERROR: storage walk of a wiped account failed"
  let created := createdEntries keccak256 s
  accountUpdates keccak256 stale s (s.witness.addrHashes.length + created.length)
    s.witness.addrHashes created

/-! ## After the walk -/

/-- `rlp_into_cache` of a live record, with its storage root rebuilt. -/
def recache (addr : Address) : DirectState :=
  match s.readAccount addr with
  | none => s
  | some pa => s.storeAccount addr (pa.rlpIntoCache (s.accountStorageRoot keccak256 addr))

/-- `clear_absent_reads`: the walks have taken every record's list. -/
def clearAbsentReads : DirectState :=
  { s with
    records := fun off => { s.records off with absentReads := [] }
    createdAccounts := s.createdAccounts.entries.foldl
      (fun (m : AddressMap Account) e => m.insert e.1 { e.2 with absentReads := [] }) ∅ }

/-- `clear_change_journal`. -/
def clearChangeJournal : DirectState := { s with changedAddressesJournal := [] }

/-- What `check_root` does to the state after its walk. -/
def settleRoot (rev : Revision) (s : DirectState) : DirectState :=
  let s := clearAbsentReads s
  let clearEmpty := decide (.spuriousDragon ≤ rev)
  clearChangeJournal (s.changedAddressesJournal.foldl (fun s addr =>
    if s.isDeleted addr || (clearEmpty && s.isEmptyAccount addr) then s else recache keccak256 s addr) s)

/-- **`check_root`**: the check, the public values and the state it leaves.  Without a parent
header the source would read through a null pointer; `insert_block` accepts no such block. -/
def checkRoot (header : BlockHeader) (rev : Revision) (t : StateTransition) (s : DirectState) :
    Except String Unit × StateTransition × DirectState :=
  match checkedUpdates keccak256 stale s with
  | .error text => (.error text, t, s)
  | .ok updates =>
    match s.readHeader (header.number - 1) header.parentHash with
    | none => (.error "", t, s)
    | some parent =>
      let newRoot :=
        Grid.calcRootFromUpdates (walkContext keccak256 stale s) parent.stateRoot updates
      (rejectIf (newRoot ≠ some header.stateRoot) "", t.anchor parent.stateRoot,
        settleRoot keccak256 rev s)

/-! ## Later blocks -/

/-- The leaf of the address hash is among the witness's. -/
def hasTwin (existing : List AddrHash) (hash : Bytes32) : Bool :=
  let below i := (existing[i]?.map fun e => decide (e.addrHash.val < hash.val)).getD false
  (existing[lowerBound below existing.length 0 existing.length]?).any fun e => e.addrHash = hash

/-- The leaves of the state: every record that is not deleted, with its cached encoding. -/
def stateLeaves : List (Bytes32 × Bytes) :=
  let existing := s.witness.addrHashes.map fun e => (e.addrHash, s.records e.entryOffset)
  let created : List (Bytes32 × Account) :=
    s.createdAccounts.entries.map fun e => (keccak256 e.1.val, e.2)
  ((existing ++ created).filter fun e => !e.2.deleted).map fun e => (e.1, e.2.accRlp)

/-- The root `check_root_new_block` builds. -/
def rebuiltRoot : Bytes32 :=
  let leaves := (stateLeaves keccak256 s).insertionSort fun a b => a.1.val ≤ b.1.val
  if leaves = [] then kEmptyRoot
  else rootOfLeaves keccak256 (leaves.map fun e => (unpackNibbles e.1.val, e.2))

/-- `check_root_new_block`. -/
def checkRootNewBlock (header : BlockHeader) (s : DirectState) : Except String Unit × DirectState :=
  let changed := s.changedAddressesJournal.filter fun addr => !s.isDeleted addr
  if changed.any fun addr => (s.readAccount addr).isNone then
    (.error "ERROR: check_root_new_block journaled addr resolves to nullptr", clearChangeJournal s)
  else
    let s := changed.foldl (recache keccak256) s
    if s.createdAccounts.entries.any fun e => hasTwin s.witness.addrHashes (keccak256 e.1.val) then
      (.error "Created and existing hashes clash", clearChangeJournal s)
    else (rejectIf (rebuiltRoot keccak256 s ≠ header.stateRoot) "", clearChangeJournal s)

end

end Zilkworm.Run
