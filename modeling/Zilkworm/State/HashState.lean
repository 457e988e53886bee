/-
# `HashState`

`core/state_zz/hash_state.hpp` and `hash_state.cpp`: the state that runs on a partial trie
witness.  The trie nodes and codes are stored under their keccak.  One sweep from the
pre-state root derives the accounts and slots the nodes reach; these caches are never
written again.  Writes go to an overlay that reads see first.  A read that misses both is
answered as absent, and counted unless a walk down the trie proves that it is.

The open-addressed indexes and their arenas are association lists here; the counters of
leaves the sweep passed are diagnostics nothing reads.  `created_code_` and its collision
map are one map by code hash, and the memo of `get_block_hash` is the walk it remembers.
-/
import Zilkworm.State.DirectState
import Zilkworm.State.TrieSweep

namespace Zilkworm.State

open Lib Rlp Zilkworm.Types Trie

/-- A map from (account, slot) hashes. -/
abbrev SlotMap (α : Type) := AList (fun _ : Bytes32 × Bytes32 => α)

/-- The part of `HashState` that the witness and the sweep over it fix. -/
structure HashCaches where
  nodes : HashMap Bytes := ∅
  codes : HashMap Bytes := ∅
  /-- The account cache, by address hash. -/
  accounts : HashMap Account := ∅
  /-- The storage cache. -/
  storage : SlotMap Bytes32 := ∅
  prevRoot : Bytes32 := zeroBytes32
  missingCount : BitVec 32 := 0
  malformedWitness : Bool := false

/-- `HashState`. -/
structure HashState extends HashCaches where
  headers : HashMap BlockHeader := ∅
  ancestorMissing : Bool := false
  /-- The walk of `get_block_hash` for the block of number `ancestorsNumber` and parent hash
  `ancestorsAnchor`. -/
  ancestors : List Bytes32 := []
  ancestorsNumber : U64 := 0
  ancestorsAnchor : Bytes32 := zeroBytes32
  unconfirmedReadCount : BitVec 32 := 0
  absentSlots : List (Bytes32 × Bytes32) := []
  createdAccounts : AddressMap Account := ∅
  overflowSlots : AddressMap (HashMap Bytes32) := ∅
  createdCode : HashMap Bytes := ∅
  touched : List Address := []
  storageWiped : List Address := []

/-- `BuildStatus`. -/
inductive BuildStatus where
  | ok | missingNode | malformed
  deriving DecidableEq, Repr

/-- `decode_trie_account`: the fields of an account's leaf; what follows them is not looked at. -/
def decodeTrieAccount (leafValue : Bytes) : Except DecodingError Account := do
  let (outer, rest) ← decodeHeader leafValue
  rejectIf (outer.list = false) .unexpectedString
  let body := rest.take outer.payloadLength
  let (nonce, body) ← decodeUint 64 .allow body
  let (balance, body) ← decodeUint 256 .allow body
  let (storageRoot, body) ← decodeArray 32 .allow body
  let (codeHash, _) ← decodeArray 32 .allow body
  return { addr := FixedBytes.zero 20, nonce, balance, storageRoot, codeHash }

/-- The word of a storage leaf: the payload of its string, right-aligned. -/
def decodeSlotValue (leafValue : Bytes) : Option Bytes32 := do
  let (h, v) ← (decodeHeader leafValue).toOption
  if h.list ∨ 32 < h.payloadLength ∨ v.length < h.payloadLength then none
  else return FixedBytes.load 32 (List.replicate (32 - h.payloadLength) 0 ++ v.take h.payloadLength)

namespace HashState

variable (keccak256 : Bytes → Bytes32) (addr : Address) (code : Bytes) (pa : Account)
  (s : HashState)

/-! ## The witness -/

/-- `add_view_`: stored under its keccak; the first of equal keys stays. -/
def addView (index : HashMap Bytes) (bytes : Bytes) : HashMap Bytes :=
  if keccak256 bytes ∈ index then index else index.insert (keccak256 bytes) bytes

/-- `add_node` and `add_node_borrowed`. -/
def addNode (rlp : Bytes) : HashState :=
  { s with nodes := addView keccak256 s.nodes rlp }

/-- `add_code` and `add_code_borrowed`. -/
def addCode (code : Bytes) : HashState :=
  { s with codes := addView keccak256 s.codes code }

/-- `find_node_rlp`. -/
def findNodeRlp (nodeHash : Bytes32) : Option Bytes := s.nodes.lookup nodeHash

/-- `find_code`: a miss is the empty code. -/
def findCode (codeHash : Bytes32) : Bytes := (s.codes.lookup codeHash).getD []

/-- `sweep` over the nodes stored. -/
def sweep (root : Bytes32) : Option Swept :=
  State.sweep s.findNodeRlp s.nodes.entries.length root

/-- `confirm_absent` over the nodes stored. -/
def confirmAbsent (root targetHash : Bytes32) : Bool :=
  State.confirmAbsent s.findNodeRlp s.nodes.entries.length root targetHash

/-- `emit_account_`: of equal keys the last is cached. -/
def emitAccount (leaf : Bytes32 × Bytes) : HashState :=
  match decodeTrieAccount leaf.2 with
  | .error _ => s
  | .ok acc => { s with accounts := s.accounts.insert leaf.1 acc }

/-- `emit_slot_`. -/
def emitSlot (accountKey : Bytes32) (s : HashState) (leaf : Bytes32 × Bytes) : HashState :=
  match decodeSlotValue leaf.2 with
  | none => s
  | some v => { s with storage := s.storage.insert (accountKey, leaf.1) v }

/-- The storage tries of the leaves that are accounts, in the order of the leaves. -/
def storageRoots (leaves : List (Bytes32 × Bytes)) : List (Bytes32 × Bytes32) :=
  leaves.filterMap fun leaf =>
    match decodeTrieAccount leaf.2 with
    | .error _ => none
    | .ok acc => if acc.storageRoot = kEmptyRoot then none else some (leaf.1, acc.storageRoot)

/-- The storage pass of one account; an absent root is skipped. -/
def storagePass (pr : Bytes32 × Bytes32) : HashState :=
  match s.sweep pr.2 with
  | none => s
  | some swept =>
    let s := swept.leaves.foldl (emitSlot pr.1) s
    { s with malformedWitness := s.malformedWitness || swept.malformed }

/-- The account pass, with the storage tries to visit after it. -/
def accountPass (prevRoot : Bytes32) : HashState × List (Bytes32 × Bytes32) :=
  if prevRoot = kEmptyRoot then (s, [])
  else
    match s.sweep prevRoot with
    | none => ({ s with missingCount := s.missingCount + 1 }, [])
    | some swept =>
      let s := swept.leaves.foldl emitAccount s
      ({ s with malformedWitness := s.malformedWitness || swept.malformed }, storageRoots swept.leaves)

/-- `build_state_from_trie`. -/
def buildStateFromTrie (prevRoot : Bytes32) (s : HashState) : BuildStatus × HashState :=
  let s := { s with
    missingCount := 0, unconfirmedReadCount := 0, ancestorMissing := false
    malformedWitness := false, absentSlots := [], prevRoot := prevRoot }
  let (s, roots) := s.accountPass prevRoot
  let s := roots.foldl storagePass s
  (if s.malformedWitness then .malformed else if s.missingCount ≠ 0 then .missingNode else .ok, s)

/-! ## Reads of the caches -/

/-- `++unconfirmed_read_count_`. -/
def countUnconfirmed : HashState :=
  { s with unconfirmedReadCount := s.unconfirmedReadCount + 1 }

/-- `note_account_miss_`. -/
def noteAccountMiss (addrHash : Bytes32) (s : HashState) : HashState :=
  if s.confirmAbsent s.prevRoot addrHash then s else s.countUnconfirmed

/-- `find_built_account`. -/
def findBuiltAccount (addrHash : Bytes32) : Option Account := s.accounts.lookup addrHash

/-- `find_built_storage`. -/
def findBuiltStorage (addrHash slotHash : Bytes32) : Bool :=
  (s.storage.lookup (addrHash, slotHash)).isSome

/-- `get_account`. -/
def getAccount (addrHash : Bytes32) (s : HashState) : Option Account × HashState :=
  match s.findBuiltAccount addrHash with
  | some acc => (some acc, s)
  | none => (none, s.noteAccountMiss addrHash)

/-- `note_storage_miss_`: nothing is noted for an account that is not cached. -/
def noteStorageMiss (addrHash slotHash : Bytes32) (s : HashState) : HashState :=
  match s.accounts.lookup addrHash with
  | none => s
  | some acc =>
    if acc.storageRoot = kEmptyRoot then s
    else if (addrHash, slotHash) ∈ s.absentSlots then s
    else if s.confirmAbsent acc.storageRoot slotHash then
      { s with absentSlots := s.absentSlots.insert (addrHash, slotHash) }
    else s.countUnconfirmed

/-- `get_storage`. -/
def getStorage (addrHash slotHash : Bytes32) (s : HashState) : Bytes32 × HashState :=
  match s.storage.lookup (addrHash, slotHash) with
  | some v => (v, s)
  | none => (zeroBytes32, s.noteStorageMiss addrHash slotHash)

/-! ## Reads through the overlay -/

/-- `lookup_account_`: the overlay's record, else the built one; nothing is noted. -/
def lookupAccount (addr : Address) : Option Account :=
  (s.createdAccounts.lookup addr).or (s.findBuiltAccount (keccak256 addr.val))

/-- `resolve_for_read_` and `read_account`. -/
def readAccount :
    Option Account × HashState :=
  match s.createdAccounts.lookup addr with
  | some pa => (if pa.deleted then none else some pa, s)
  | none => s.getAccount (keccak256 addr.val)

/-- The overlay's slots of an address. -/
def overflowSlotsFor (addr : Address) : HashMap Bytes32 :=
  (s.overflowSlots.lookup addr).getD ∅

/-- `read_storage`. -/
def readStorage (key : Bytes32) (s : HashState) :
    Bytes32 × HashState :=
  match (s.overflowSlotsFor addr).lookup key with
  | some v => (v, s)
  | none =>
    if addr ∈ s.storageWiped then (zeroBytes32, s)
    else s.getStorage (keccak256 addr.val) (keccak256 key.val)

/-- `find_created_code_`. -/
def findCreatedCode (codeHash : Bytes32) : Bytes :=
  (s.createdCode.lookup codeHash).getD []

/-- `read_code` of a live record. -/
def readCodeOf : Bytes × HashState :=
  let created := s.findCreatedCode pa.codeHash
  let stored := if pa.codeStoreOffset = kCreatedCodeOffset then [] else s.findCode pa.codeHash
  if pa.codeHash = kEmptyHash then ([], s)
  else if stored ≠ [] then (stored, s)
  else if created ≠ [] then (created, s)
  else ([], s.countUnconfirmed)

/-- `read_code`. -/
def readCode : Bytes × HashState :=
  match s.readAccount keccak256 addr with
  | (none, s) => ([], s)
  | (some pa, s) => if pa.deleted then ([], s) else s.readCodeOf pa

/-- `get_balance`. -/
def getBalance : U256 × HashState :=
  let (pa, s) := s.readAccount keccak256 addr
  ((pa.map (·.balance)).getD 0, s)

/-- `get_nonce`. -/
def getNonce : U64 × HashState :=
  let (pa, s) := s.readAccount keccak256 addr
  ((pa.map (·.nonce)).getD 0, s)

/-- `has_storage`. -/
def hasStorage (addr : Address) : Bool :=
  match s.lookupAccount keccak256 addr with
  | none => false
  | some pa =>
    if pa.deleted then false
    else if (s.overflowSlotsFor addr).entries.any (fun e => e.2 ≠ zeroBytes32) then true
    else if addr ∈ s.storageWiped then false
    else pa.storageRoot ≠ kEmptyRoot

/-- `is_deleted`. -/
def isDeleted (addr : Address) : Bool :=
  ((s.lookupAccount keccak256 addr).map (·.deleted)).getD true

/-- `is_empty_account`. -/
def isEmptyAccount (addr : Address) : Bool :=
  (s.lookupAccount keccak256 addr).any fun pa => !pa.deleted && pa.isEmpty

/-- `is_dead`. -/
def isDead (addr : Address) : Bool :=
  s.isDeleted keccak256 addr || s.isEmptyAccount keccak256 addr

/-! ## Mutators -/

/-- Writes a record to the overlay. -/
def storeAccount : HashState :=
  { s with createdAccounts := s.createdAccounts.insert addr pa }

/-- `find_or_create_account`: a built record is copied to the overlay; a total miss leaves a deleted
record there, and is counted unless it is proven. -/
def findOrCreateAccount :
    Account × HashState :=
  match s.createdAccounts.lookup addr with
  | some pa => (pa, s)
  | none =>
    match s.findBuiltAccount (keccak256 addr.val) with
    | some built => ({ built with addr := addr }, s.storeAccount addr { built with addr := addr })
    | none =>
      (Account.absent addr,
        (s.storeAccount addr (Account.absent addr)).noteAccountMiss (keccak256 addr.val))

/-- `HashStateView::get_account`. -/
def viewAccount :
    Option AccountInfo × HashState :=
  let (pa, s) := s.findOrCreateAccount keccak256 addr
  (if pa.deleted then none else some (pa.info (s.hasStorage keccak256 addr)), s)

/-- The storage of an account is dropped: written slots go, and built ones read as zero. -/
def wipeStorage : HashState :=
  { s with
    overflowSlots := s.overflowSlots.erase addr
    storageWiped := s.storageWiped.insert addr }

/-- `revive_if_deleted`. -/
def reviveIfDeleted : Account × HashState :=
  if pa.deleted then ({ pa.revived with codeStoreOffset := 0 }, s.wipeStorage addr) else (pa, s)

/-- `find_or_create_account`, then `revive_if_deleted`. -/
def liveAccount : Account × HashState :=
  let (pa, s) := s.findOrCreateAccount keccak256 addr
  reviveIfDeleted addr pa s

/-- The frame of the field mutators. -/
def setField (changes : Account → Bool)
    (set : Account → Account) (s : HashState) : HashState :=
  let (pa, s) := s.liveAccount keccak256 addr
  let s := s.storeAccount addr
    (if changes pa then { set pa with modified := true, accRlpSrootOff := 0 } else pa)
  { s with touched := s.touched.insert addr }

/-- `set_balance`. -/
def setBalance (value : U256) : HashState → HashState :=
  setField keccak256 addr (fun pa => pa.balance ≠ value) (fun pa => { pa with balance := value })

/-- `add_to_balance`. -/
def addToBalance (addend : U256) :
    HashState → HashState :=
  setField keccak256 addr (fun _ => addend ≠ 0) (fun pa => { pa with balance := pa.balance + addend })

/-- `subtract_from_balance`. -/
def subtractFromBalance (subtrahend : U256) :
    HashState → HashState :=
  setField keccak256 addr (fun _ => subtrahend ≠ 0)
    (fun pa => { pa with balance := pa.balance - subtrahend })

/-- `set_nonce`. -/
def setNonce (nonce : U64) : HashState → HashState :=
  setField keccak256 addr (fun pa => pa.nonce ≠ nonce) (fun pa => { pa with nonce := nonce })

/-- `stash_created_code_`. -/
def stashCreatedCode (codeHash : Bytes32) (code : Bytes) (s : HashState) : HashState :=
  if codeHash ∈ s.createdCode then s
  else { s with createdCode := s.createdCode.insert codeHash code }

/-- `note_created_code`. -/
def noteCreatedCode : HashState :=
  if code = [] then s
  else if s.findCode (keccak256 code) = [] then s.stashCreatedCode (keccak256 code) code
  else s

/-- Where a record of new code points: to the witness's code if it holds it, else to code created
here, which is kept. -/
def placeCode (codeHash : Bytes32) (code : Bytes) (pa : Account) (s : HashState) :
    Account × HashState :=
  let pa := { pa with codeHash := codeHash, codeStoreLen := code.length % 2 ^ 32 }
  if s.findCode codeHash ≠ [] then ({ pa with codeStoreOffset := 0 }, s)
  else ({ pa with codeStoreOffset := kCreatedCodeOffset }, s.stashCreatedCode codeHash code)

/-- `set_code`. -/
def setCode : HashState :=
  let (pa, s) := s.liveAccount keccak256 addr
  let changed := pa.codeHash ≠ keccak256 code
  let (pa, s) := s.placeCode (keccak256 code) code pa
  let s := s.storeAccount addr
    (if changed then { pa with modified := true, accRlpSrootOff := 0 } else pa)
  { s with touched := s.touched.insert addr }

/-- `apply_code_diff`. -/
def applyCodeDiff : Account × HashState :=
  if code = [] then
    ({ pa with
        codeHash := kEmptyHash, codeStoreLen := 0, codeStoreOffset := 0
        modified := true, accRlpSrootOff := 0 }, s)
  else
    let s := if isCodeDelegated code then s else s.wipeStorage addr
    let (pa, s) := s.placeCode (keccak256 code) code pa
    ({ pa with modified := true, accRlpSrootOff := 0 }, s)

/-- `set_storage_slot`: every write stays in the overlay, a zero too. -/
def setStorageSlot (key value : Bytes32) (s : HashState) :
    Account × HashState :=
  ({ pa with modified := true },
    { s with overflowSlots := s.overflowSlots.insert addr ((s.overflowSlotsFor addr).insert key value) })

/-- `destruct`: an account that is in neither store is not marked. -/
def destruct : HashState :=
  let s := match s.lookupAccount keccak256 addr with
    | none => s
    | some pa => s.storeAccount addr { pa with addr := addr, deleted := true }
  let s := s.wipeStorage addr
  { s with touched := s.touched.insert addr }

/-- `destruct_dead_among`. -/
def destructDeadAmong (addrs : List Address) (s : HashState) : HashState :=
  addrs.foldl (fun s addr => if s.isDead keccak256 addr then s.destruct keccak256 addr else s) s

/-- `apply_state_diff` of one modified account. -/
def applyModified (m : ModifiedAccount) : HashState :=
  let (pa, s) := s.liveAccount keccak256 m.addr
  let (pa, s) := match m.code with
    | none => (pa, s)
    | some code => s.applyCodeDiff keccak256 m.addr code pa
  let pa := DirectState.setAccountFromDiff m.nonce m.balance pa
  let (pa, s) := m.modifiedStorage.foldl (fun (pa, s) (k, v) => s.setStorageSlot m.addr pa k v) (pa, s)
  s.storeAccount m.addr pa

/-- `apply_state_diff`. -/
def applyStateDiff (diff : StateDiff) (s : HashState) : HashState :=
  let s := diff.modifiedAccounts.foldl (applyModified keccak256) s
  diff.deletedAccounts.foldl (fun s a => s.destruct keccak256 a) s

/-! ## Headers -/

/-- `read_header`: by the hash alone. -/
def readHeader (_blockNum : U64) (blockHash : Bytes32) : Option BlockHeader :=
  s.headers.lookup blockHash

/-- `insert_header`: the walk is dropped; the block it was for is not. -/
def insertHeader (header : BlockHeader) (s : HashState) : HashState :=
  { s with headers := s.headers.insert (header.hash keccak256) header, ancestors := [] }

/-- `kBlockHashDepth`. -/
def kBlockHashDepth : ℕ := 256

/-- The loop of `get_block_hash`: the hashes of the run of held headers from a hash down, at most
`n` of them. -/
def heldAncestors (headers : HashMap BlockHeader) : (n : ℕ) → (hash : Bytes32) → List Bytes32
  | 0, _ => []
  | n + 1, hash =>
    match headers.lookup hash with
    | none => []
    | some h => hash :: heldAncestors headers n h.parentHash

/-- The walk is kept for the block that asks; another block starts its own. -/
def startWalk (header : BlockHeader) (s : HashState) : HashState :=
  if s.ancestorsNumber ≠ header.number ∨ s.ancestorsAnchor ≠ header.parentHash then
    { s with
      ancestors := heldAncestors s.headers kBlockHashDepth header.parentHash
      ancestorsNumber := header.number
      ancestorsAnchor := header.parentHash }
  else s

/-- `get_block_hash`. -/
def getBlockHash (header : BlockHeader) (n : U64) (s : HashState) : Bytes32 × HashState :=
  if header.number ≤ n then (zeroBytes32, s)
  else
    let s := s.startWalk header
    match s.ancestors[(header.number - 1 - n).toNat]? with
    | none => (zeroBytes32, { s.countUnconfirmed with ancestorMissing := true })
    | some hash => (hash, s)

end HashState

end Zilkworm.State
