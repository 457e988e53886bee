/-
# Trie nodes

`core/trie_zz/mpt.hpp` and `rlp_sw.hpp`: the nodes the walk of a witness trie holds, their
encoding and their decoding.  A child reference is a hash of 32 bytes or the encoding of a
node that is shorter than that.  A slot whose child the walk holds itself, and whose
reference is not known until the child is folded, has a placeholder of length one: what
byte stands there is whatever the memory held, `stale`.

A branch that is still laid out as its witness node is encoded by copying that node and
patching the changed slots.  Its hash from a saved keccak state is taken for the hash of that
encoding.
-/
import Zilkworm.Lib.Memory
import Zilkworm.Trie.HashBuilder

namespace Zilkworm.Trie

open Lib Rlp Zilkworm.Types State

/-- A path in the trie, `nibbles64`. -/
abbrev Nibbles := List (Fin 16)

instance neZero_radix : NeZero 16 := ⟨by decide⟩

/-- The nibbles as the bytes that hold them. -/
def nibbleBytes (path : Nibbles) : Bytes := path.map fun n => UInt8.ofNat n.val

/-- The two nibbles of a byte. -/
def nibblesOf (b : UInt8) : Nibbles :=
  [⟨b.toNat / 16, by have := b.toNat_lt; omega⟩, ⟨b.toNat % 16, Nat.mod_lt _ (by decide)⟩]

/-- `nibbles64::from_bytes32`. -/
def nibblesOfKey (key : Bytes32) : Nibbles := key.val.flatMap nibblesOf

/-- A child reference: none, a placeholder, or bytes. -/
inductive ChildRef where
  | empty
  | pending
  | ref (bytes : Bytes)
  deriving DecidableEq, Repr

/-- The `child_len` bytes of a reference. -/
def ChildRef.bytes (stale : UInt8) : ChildRef → Bytes
  | .empty => []
  | .pending => [stale]
  | .ref b => b

/-- `child_len` of a reference. -/
def ChildRef.len : ChildRef → ℕ
  | .empty => 0
  | .pending => 1
  | .ref b => b.length

/-- `BranchNode`.  `orig` is the witness node the branch was unfolded from, `origChildLen` the
lengths of the references there, `dirty` the slots that were written since. -/
structure BranchNode where
  child : Fin 16 → ChildRef := fun _ => .empty
  orig : Option Bytes := none
  origChildLen : Fin 16 → ℕ := fun _ => 0
  dirty : Fin 16 → Bool := fun _ => false

namespace BranchNode

/-- The slots of a branch that are set, its `mask`. -/
def mask (b : BranchNode) : List (Fin 16) := (List.finRange 16).filter fun i => b.child i ≠ .empty

/-- `has_single_child`, with `first_set_bit`. -/
def singleChild (b : BranchNode) : Option (Fin 16) :=
  match b.mask with
  | [i] => some i
  | _ => none

/-- Every change of a slot sets its dirty bit. -/
def put (slot : Fin 16) (c : ChildRef) (b : BranchNode) : BranchNode :=
  { b with child := Function.update b.child slot c, dirty := Function.update b.dirty slot true }

/-- `same_layout_as_orig`. -/
def sameLayoutAsOrig (b : BranchNode) : Bool := ∀ i, (b.child i).len = b.origChildLen i

end BranchNode

/-- The three members of the union in `GridLine`, with their tag. -/
inductive Node where
  | branch (b : BranchNode)
  | ext (path : Nibbles) (child : ChildRef)
  | leaf (path : Nibbles) (value : Bytes)

namespace Node

/-- `is_empty`. -/
def isEmpty : Node → Bool
  | branch b => b.mask = []
  | ext _ child => child = .empty
  | leaf _ value => value = []

/-- Whether the node is a leaf. -/
def isLeaf : Node → Bool
  | leaf _ _ => true
  | _ => false

/-- How far a node takes its key: what it adds to its parent's `consumed`. -/
def consumes : Node → ℕ
  | branch _ => 1
  | ext path _ => path.length
  | leaf _ _ => 0

/-- The placeholder of `link_to_parent`, where the parent has no reference yet. -/
def placehold (slot : Fin 16) : Node → Node
  | .branch b => if b.child slot = .empty then .branch (b.put slot .pending) else .branch b
  | .ext path child => .ext path (if child = .empty then .pending else child)
  | .leaf path value => .leaf path value

/-- `BranchNode::delete_child` or `ExtensionNode::delete_child`. -/
def deleteChild (slot : Fin 16) : Node → Node
  | .branch b => .branch (b.put slot .empty)
  | .ext path _ => .ext path .empty
  | .leaf path value => .leaf path value

/-- `BranchNode::set_child` or `ExtensionNode::set_child`. -/
def setChild (slot : Fin 16) (c : ChildRef) : Node → Node
  | .branch b => .branch (b.put slot c)
  | .ext path _ => .ext path c
  | .leaf path value => .leaf path value

end Node

/-! ## Encoding -/

/-- A reference as an item of its parent's encoding. -/
def refItem (b : Bytes) : Bytes :=
  if b.length = 0 then [kEmptyStringCode] else if b.length = 32 then 0xa0 :: b else b

namespace BranchNode

variable (stale : Fin 16 → UInt8)

/-- The end of `encode_branch`: all sixteen slots and the empty value. -/
def encodeAnew (b : BranchNode) : Bytes :=
  encodeList (((List.finRange 16).map fun i => refItem ((b.child i).bytes (stale i))).flatten ++
    [kEmptyStringCode])

/-- The length of a node's list header, by its first byte. -/
def listHeaderLength (b₀ : UInt8) : ℕ := if b₀ < 0xf8 then 1 else 1 + (b₀.toNat - 0xf7)

/-- `has_full_branch_orig`. -/
def hasFullBranchOrig (b : BranchNode) (orig : Bytes) : Bool :=
  orig.length = 3 + 16 * 33 + 1 ∧ orig.headD 0 = 0xf9 ∧ ∀ i, b.origChildLen i = 32

/-- What a dirty slot of a length class is rewritten with. -/
def patchItem (len : ℕ) (content : Bytes) : Bytes :=
  if len = 0 then [kEmptyStringCode] else if len = 32 then 0xa0 :: content else content

/-- The room a slot of a length class has in the witness node. -/
def slotSize (len : ℕ) : ℕ := if len = 0 then 1 else if len = 32 then 33 else len

/-- The walk over the slots, the next one at `p`. -/
def patchWalk (b : BranchNode) : List (Fin 16) → (p : ℕ) → Bytes → Bytes
  | [], _, out => out
  | i :: is, p, out =>
    let len := b.origChildLen i
    patchWalk b is (p + slotSize len)
      (if b.dirty i then writeAt out p (patchItem len ((b.child i).bytes (stale i))) else out)

/-- The witness node with its dirty slots rewritten. -/
def copyAndPatch (b : BranchNode) (orig : Bytes) : Bytes :=
  if ∀ i, b.dirty i = false then orig
  else if b.hasFullBranchOrig orig then
    (List.finRange 16).foldl (fun out i =>
      if b.dirty i then writeAt out (3 + 33 * i.val) (0xa0 :: (b.child i).bytes (stale i)) else out) orig
  else b.patchWalk stale (List.finRange 16) (listHeaderLength (orig.headD 0)) orig

end BranchNode

/-- `encode_branch`. -/
def encodeBranch (stale : Fin 16 → UInt8) (b : BranchNode) : Bytes :=
  if b.mask = [] then [kEmptyStringCode]
  else
    match b.orig with
    | some orig => if b.sameLayoutAsOrig then b.copyAndPatch stale orig else b.encodeAnew stale
    | none => b.encodeAnew stale

/-- `encode_ext`. -/
def encodeExt (stale : UInt8) (path : Nibbles) (child : ChildRef) : Bytes :=
  if child = .empty then [kEmptyStringCode]
  else encodeList (encodeBytes (encodePath (nibbleBytes path) false) ++ refItem (child.bytes stale))

/-- `encode_leaf`. -/
def encodeLeaf (path : Nibbles) (value : Bytes) : Bytes :=
  encodeList (encodeBytes (encodePath (nibbleBytes path) true) ++ encodeBytes value)

/-- `encode_line` of a line that is not deleted. -/
def Node.encode (stale : UInt8) : Node → Bytes
  | branch b => encodeBranch (fun _ => stale) b
  | ext path child => encodeExt stale path child
  | leaf path value => encodeLeaf path value

/-- The reference `fold_line` writes for a child's encoding. -/
def childRefOf (keccak256 : Bytes → Bytes32) (encoded : Bytes) : ChildRef :=
  .ref (if 32 ≤ encoded.length then (keccak256 encoded).val else encoded)

/-! ## Decoding -/

/-- `kMaxLeafValueSize`. -/
def kMaxLeafValueSize : ℕ := 2048 - 64

/-- `hp_decode`: whether the path is a leaf's, and its nibbles. -/
def hpDecode : Bytes → Option (Bool × Nibbles)
  | [] => none
  | b :: rest =>
    let flag := b.toNat / 16
    let odd := flag % 2 = 1
    if (if odd then 31 else 32) < rest.length then none
    else some (flag / 2 % 2 = 1, (if odd then (nibblesOf b).drop 1 else []) ++ rest.flatMap nibblesOf)

/-- `fast_decode_header`: whether the payload is a list, and the list's bytes. -/
def fastDecodeHeader (src : Bytes) : Option Bytes :=
  if src.length < 8 then none
  else
    let first := (src.headD 0).toNat
    let offset := first % 64
    if first < 0xC0 ∨ 58 < offset then none
    else if offset ≤ 55 then some ((src.drop 1).take offset)
    else
      let lenBytes := offset - 55
      some ((src.drop (1 + lenBytes)).take (beNat (slice src 1 lenBytes)))

/-- `fill_branch_child`, for the first two slots, whose headers are decoded already. -/
def fillBranchChild (startByte : UInt8) (data : Bytes) : Option ChildRef :=
  if data = [] then some .empty
  else if startByte ≠ 0xa0 then
    if 31 < data.length then none else some (.ref (startByte :: data))
  else some (.ref data)

/-- One slot of a branch from the third on, with the rest of the list. -/
def fillBranchChildRlp : Bytes → Option (ChildRef × Bytes)
  | [] => none
  | b :: rest =>
    if b = 0xa0 then if rest.length < 32 then none else some (.ref (rest.take 32), rest.drop 32)
    else if b = kEmptyStringCode then some (.empty, rest)
    else if 0xc0 ≤ b ∧ b ≤ 0xf7 then
      let len := b.toNat - 0xc0
      if 31 < len ∨ rest.length < len then none else some (.ref (b :: rest.take len), rest.drop len)
    else none

/-- The slots of a branch from the third on. -/
def fillBranchChildren : (n : ℕ) → Bytes → Option (List ChildRef × Bytes)
  | 0, src => some ([], src)
  | n + 1, src => do
    let (c, src) ← fillBranchChildRlp src
    let (cs, src) ← fillBranchChildren n src
    return (c :: cs, src)

/-- What `decode_node` finds: a branch, or a path with the second item of a leaf or extension. -/
inductive Decoded where
  | branch (child : List ChildRef)
  | short (isLeaf : Bool) (path : Nibbles) (second : Bytes)
  deriving DecidableEq

/-- The branch `unfold_node_from_rlp` makes of a node and its decoded children; `list` is the
payload of the node.  It remembers a node of at least 32 bytes. -/
def BranchNode.unfold (payload list : Bytes) (children : List ChildRef) : BranchNode :=
  let child (i : Fin 16) := children.getD i.val .empty
  let size := listHeaderLength (payload.headD 0) + list.length
  if 32 ≤ size ∧ size ≤ 2 ^ 16 - 1 then
    { child := child, orig := some (payload.take size), origChildLen := fun i => (child i).len }
  else { child := child }

/-- The leaf or extension of two decoded items; `raw` is the second with its header. -/
def decodeShort (h₀ h₁ : Header) (item₀ item₁ raw : Bytes) : Option Decoded := do
  if h₀.list then none
  let (isLeaf, path) ← hpDecode item₀
  if h₁.list then none
  if isLeaf then
    if item₁ = [] ∨ kMaxLeafValueSize < item₁.length then none
    else return .short true path item₁
  else return .short false path (if item₁.length = 32 then item₁ else raw)

/-- The general decoding of `decode_node`: the first two items by their headers, and then, unless
the list ends there, the other slots and the empty value. -/
def decodeItems (payload : Bytes) : Option Decoded := do
  let (h₀, src) ← (decodeHeader payload).toOption
  let item₀ := src.take h₀.payloadLength
  let rest₀ := src.drop h₀.payloadLength
  let (h₁, src) ← (decodeHeader rest₀).toOption
  let item₁ := src.take h₁.payloadLength
  let rest₁ := src.drop h₁.payloadLength
  if rest₁ = [] then decodeShort h₀ h₁ item₀ item₁ rest₀
  else
    let c₀ ← fillBranchChild (payload.headD 0) item₀
    let c₁ ← fillBranchChild (rest₀.headD 0) item₁
    let (cs, rest) ← fillBranchChildren 14 rest₁
    if rest = [kEmptyStringCode] then return .branch (c₀ :: c₁ :: cs) else none

/-- The test of `decode_node` for a full branch: sixteen strings of 32 bytes by their length bytes,
and the empty value. -/
def isFullBranch (payload : Bytes) : Bool :=
  payload.length = 16 * 33 + 1 ∧ byteAt payload (16 * 33) = kEmptyStringCode ∧
    ∀ i : Fin 16, byteAt payload (33 * i.val) = 0xa0

/-- `decode_node` of the payload of a list.  The children of a full branch lie at fixed places. -/
def decodeNode (payload : Bytes) : Option Decoded :=
  if isFullBranch payload then some
    (.branch ((List.range 16).map fun i => .ref (slice payload (33 * i + 1) 32)))
  else decodeItems payload

end Zilkworm.Trie
