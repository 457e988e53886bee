/-
# The accept check of a stateless input

`dev/check_root_hashstate.hpp`: the writes of the overlay of a `HashState`, gathered per account,
folded over the pre-state root.  The walk checks no pre-values; that every read was bound is
what the two counters say.
-/
import Zilkworm.State.HashBackend
import Zilkworm.Trie.GridMpt

namespace Zilkworm.Run

open Lib Rlp Zilkworm.Types State Trie

/-- `HashStateAccountWrite`; without an account the leaf is deleted. -/
structure HashStateAccountWrite where
  addrHash : Bytes32
  storageRoot : Bytes32 := zeroBytes32
  storageUpdates : List TrieUpdate := []
  account : Option Account := none

section

variable (keccak256 : Bytes → Bytes32) (stale : UInt8)

/-- The walk over the nodes of a `HashState`. -/
def hashWalkContext (s : HashState) : WalkContext where
  keccak256 := keccak256
  findNodeRlp := s.findNodeRlp
  stale := stale
  prevalueCheck := false

/-- The storage root of an account after its writes. -/
def foldStorage (s : HashState) (w : HashStateAccountWrite) : Option Bytes32 :=
  if w.storageUpdates = [] then some w.storageRoot
  else
    Grid.calcRootFromUpdates (hashWalkContext keccak256 stale s)
      (if w.storageRoot = zeroBytes32 then kEmptyRoot else w.storageRoot) w.storageUpdates

/-- The account-trie update of a write; `none` if the storage walk fails. -/
def accountWriteUpdate (s : HashState) (w : HashStateAccountWrite) : Option TrieUpdate :=
  match w.account with
  | none => some ⟨w.addrHash, [], [0x80]⟩
  | some acc => (foldStorage keccak256 stale s w).map fun storageRoot =>
      ⟨w.addrHash, [], acc.rlp storageRoot⟩

/-- `check_root_hashstate` of a sorted list of writes: accept, or the text printed for a failed
storage walk. -/
def checkRootOfWrites (s : HashState) (prevRoot : Bytes32) (writes : List HashStateAccountWrite)
    (headerStateRoot : Bytes32) : Except String Unit :=
  match writes.mapM (accountWriteUpdate keccak256 stale s) with
  | none => .error "ERROR: storage walk failed in the HashState accept check"
  | some updates =>
    rejectIf (Grid.calcRootFromUpdates (hashWalkContext keccak256 stale s) prevRoot updates ≠
        some headerStateRoot ∨ s.missingCount ≠ 0 ∨ s.unconfirmedReadCount ≠ 0) ""

/-! ## The gather -/

/-- The storage updates of an account's overlay slots: a zero is left out unless it deletes a slot
of the pre-state. -/
def gatherStorage (s : HashState) (addr : Address) : List TrieUpdate :=
  let wiped := decide (addr ∈ s.storageWiped)
  let live := (s.overflowSlotsFor addr).entries.filter fun e =>
    !(decide (e.2 = zeroBytes32) &&
      (wiped || !s.findBuiltStorage (keccak256 addr.val) (keccak256 e.1.val)))
  (live.map fun e =>
    (⟨keccak256 e.1.val, [], encodeBytes (DirectState.zerolessView e.2)⟩ : TrieUpdate)).insertionSort
    fun a b => a.key.val ≤ b.key.val

/-- The write of one overlay record, if it has any. -/
def gatherAccount (s : HashState) (addr : Address) (acc : Account) : Option HashStateAccountWrite :=
  let addrHash := keccak256 addr.val
  let built := (s.findBuiltAccount addrHash).isSome
  if acc.deleted then if built then some { addrHash := addrHash } else none
  else if !acc.modified && built then none
  else some {
    addrHash := addrHash
    storageRoot := if addr ∈ s.storageWiped then kEmptyRoot else acc.storageRoot
    storageUpdates := gatherStorage keccak256 s addr
    account := some acc }

/-- The writes of the overlay, in hash order. -/
def gatherWrites (s : HashState) : List HashStateAccountWrite :=
  (s.createdAccounts.entries.filterMap fun e => gatherAccount keccak256 s e.1 e.2).insertionSort
    fun a b => a.addrHash.val ≤ b.addrHash.val

/-- **`check_root_hashstate`**. -/
def checkRootHashstate (s : HashState) (prevRoot headerStateRoot : Bytes32) : Except String Unit :=
  checkRootOfWrites keccak256 stale s prevRoot (gatherWrites keccak256 s) headerStateRoot

end

end Zilkworm.Run
