/-
# The hash builder

`core/trie/hash_builder.{hpp,cpp}`, `core/trie/nibbles.cpp` and `core/trie/vector_root.hpp`:
the root of a trie from its leaves in ascending key order, with a stack of node references
and one bit mask of digits per open prefix.  The roots of the transactions, receipts and
withdrawals of a block, and of a state rebuilt from its records, are computed with it.

The builder of intermediate database nodes (`add_branch_node` and the collectors) is not
used by the guest and is left out, with the two masks that only it reads.
-/
import Zilkworm.State.ActiveState

namespace Zilkworm.Trie

open Lib Rlp Zilkworm.Types State

/-- `unpack_nibbles`: one nibble per byte, the high one first. -/
def unpackNibbles (data : Bytes) : Bytes := data.flatMap fun (b : UInt8) => [b >>> 4, b &&& 0x0F]

/-- Two nibbles to a byte. -/
def packPairs : Bytes → Bytes
  | a :: b :: rest => (a <<< 4 + b) :: packPairs rest
  | _ => []

/-- `encode_path`, the hex-prefix encoding. -/
def encodePath (nibbles : Bytes) (terminating : Bool) : Bytes :=
  let flag : UInt8 := if terminating then 0x20 else 0x00
  match nibbles.length % 2, nibbles with
  | 1, n :: rest => (flag + 0x10 ||| n) :: packPairs rest
  | _, _ => flag :: packPairs nibbles

/-- `leaf_node_rlp`. -/
def leafNodeRlp (path value : Bytes) : Bytes :=
  encodeHeader ⟨true, lengthBytes (encodePath path true) + lengthBytes value⟩ ++
    encodeBytes (encodePath path true) ++ encodeBytes value

/-- `extension_node_rlp`. -/
def extensionNodeRlp (path childRef : Bytes) : Bytes :=
  encodeHeader ⟨true, lengthBytes (encodePath path false) + childRef.length⟩ ++
    encodeBytes (encodePath path false) ++ childRef

/-- `wrap_hash`. -/
def wrapHash (hash : Bytes32) : Bytes := 0xA0 :: hash.val

/-- `node_ref`: a short node is its own reference, any other is named by its hash. -/
def nodeRef (keccak256 : Bytes → Bytes32) (rlp : Bytes) : Bytes :=
  if rlp.length < 32 then rlp else wrapHash (keccak256 rlp)

/-- `prefix_length`. -/
def prefixLength (a b : Bytes) : ℕ := ((a.zip b).takeWhile fun p => p.1 == p.2).length

/-- `HashBuilder`; the stack's last element is at the head of the list. -/
structure HashBuilder where
  key : Bytes := []
  value : Bytes := []
  groups : List (BitVec 16) := []
  stack : List Bytes := []
  deriving DecidableEq

/-- The items of a branch: the children in digit order where the mask has a bit, empty strings
elsewhere, and the empty value. -/
def branchItems (mask : BitVec 16) : (digits : List ℕ) → List Bytes → List Bytes
  | [], _ => [[kEmptyStringCode]]
  | d :: ds, children =>
    if mask.getLsbD d then children.headD [] :: branchItems mask ds children.tail
    else [kEmptyStringCode] :: branchItems mask ds children

/-- `branch_ref`: the children on the stack give way to the branch's reference. -/
def branchRef (keccak256 : Bytes → Bytes32) (mask : BitVec 16) (stack : List Bytes) : List Bytes :=
  let n := ((List.range 16).filter mask.getLsbD).length
  let items := branchItems mask (List.range 16) (stack.take n).reverse
  nodeRef keccak256 (encodeList items.flatten) :: stack.drop n

/-- `groups_[len] |= 1u << digit`, after growing the list. -/
def setDigit (groups : List (BitVec 16)) (len digit : ℕ) : List (BitVec 16) :=
  let groups := groups ++ List.replicate (len + 1 - groups.length) 0
  groups.set len (groups.getD len 0 ||| BitVec.ofNat 16 (1 <<< digit))

/-- Drops trailing empty groups. -/
def popEmptyGroups (groups : List (BitVec 16)) : List (BitVec 16) :=
  (groups.reverse.dropWhile (· == 0)).reverse

/-- `gen_struct_step`, the round that starts with `current`.  Each round is about a shorter
prefix, so `current.length` rounds are enough. -/
def genStructStep (keccak256 : Bytes → Bytes32) (value : Bytes) :
    (fuel : ℕ) → (buildExtensions : Bool) → (current succeeding : Bytes) →
    List (BitVec 16) × List Bytes → List (BitVec 16) × List Bytes
  | 0, _, _, _, st => st
  | fuel + 1, buildExtensions, current, succeeding, (groups, stack) =>
    let precedingExists := groups ≠ []
    let precedingLen := groups.length - 1
    let commonPrefixLen := prefixLength succeeding current
    let len := max precedingLen commonPrefixLen
    let groups := setDigit groups len (current.getD len 0).toNat
    let start := if succeeding ≠ [] ∨ precedingExists then len + 1 else len
    let shortNodeKey := current.drop start
    let stack :=
      if !buildExtensions then nodeRef keccak256 (leafNodeRlp shortNodeKey value) :: stack
      else if shortNodeKey ≠ [] then
        nodeRef keccak256 (extensionNodeRlp shortNodeKey (stack.headD [])) :: stack.tail
      else stack
    if precedingLen ≤ commonPrefixLen ∧ succeeding ≠ [] then (groups, stack)
    else
      let stack :=
        if succeeding ≠ [] ∨ precedingExists then branchRef keccak256 (groups.getD len 0) stack
        else stack
      let groups := groups.take len
      if precedingLen = 0 then (groups, stack)
      else genStructStep keccak256 value fuel true (current.take precedingLen) succeeding
        (popEmptyGroups groups, stack)

namespace HashBuilder

variable (keccak256 : Bytes → Bytes32)

/-- One call of `gen_struct_step` for the pending leaf. -/
def step (hb : HashBuilder) (succeeding : Bytes) : HashBuilder :=
  let (groups, stack) := genStructStep keccak256 hb.value (hb.key.length + 1) false hb.key succeeding
    (hb.groups, hb.stack)
  { hb with groups := groups, stack := stack }

/-- `add_leaf`. -/
def addLeaf (hb : HashBuilder) (key value : Bytes) : HashBuilder :=
  let hb := if hb.key ≠ [] then hb.step keccak256 key else hb
  { hb with key := key, value := value }

/-- `finalize`. -/
def finalize (hb : HashBuilder) : HashBuilder :=
  if hb.key ≠ [] then { hb.step keccak256 [] with key := [], value := [] } else hb

/-- `root_hash`. -/
def rootHash (hb : HashBuilder) : Bytes32 :=
  match (hb.finalize keccak256).stack with
  | [] => kEmptyRoot
  | ref :: _ => if ref.length = 33 then FixedBytes.load 32 ref.tail else keccak256 ref

end HashBuilder

/-- The root of the trie with the given leaves, in ascending key order. -/
def rootOfLeaves (keccak256 : Bytes → Bytes32) (leaves : List (Bytes × Bytes)) : Bytes32 :=
  HashBuilder.rootHash keccak256 (leaves.foldl (fun hb l => hb.addLeaf keccak256 l.1 l.2) {})

/-- `adjust_index_for_rlp`. -/
def adjustIndexForRlp (i len : ℕ) : ℕ :=
  if 0x7f < i then i else if i = 0x7f ∨ i + 1 = len then 0 else i + 1

/-- `root_hash(const std::vector<Value>&, ...)` of values that are encoded already: the trie keyed
by their RLP-encoded indices. -/
def vectorRoot (keccak256 : Bytes → Bytes32) (values : List Bytes) : Bytes32 :=
  rootOfLeaves keccak256 ((List.range values.length).map fun j =>
    let index := adjustIndexForRlp j values.length
    (unpackNibbles (encodeUint (BitVec.ofNat 64 index)), values.getD index []))

end Zilkworm.Trie
