/-
# Walking a partial witness trie

`core/state_zz/hash_state.cpp`, the parts that read trie nodes: `sweep`, which visits every
leaf the stored nodes reach, and `confirm_absent`, which walks towards one key to prove
that it is not there.  Both see the nodes through the store alone, a lookup by hash that
may fail: a reference to a node that is not stored is a pruned boundary.

The explicit stack of `sweep` holds branches whose slots are still to be visited; here it is
the recursion.  Items of a branch are validated as they are reached, so the leaves before a
bad item are visited and those behind it are not.  A chain of stored nodes is never longer
than the store, since each is found by its hash, but nothing in the code says so: the walks
carry fuel, and `sweepFuel` is what a store of a given size can need.
-/
import Zilkworm.Trie.Node

namespace Zilkworm.State

open Lib Rlp Zilkworm.Types Trie

/-- `rlp_item_size`: the size of the first item, zero when it is truncated. -/
def rlpItemSize : Bytes → ℕ
  | [] => 0
  | b₀ :: rest =>
    let first := b₀.toNat
    if first < 0x80 then 1
    else
      let lenOfLen :=
        if first < 0xb8 then 0 else if first < 0xc0 then first - 0xb7
        else if first < 0xf8 then 0 else first - 0xf7
      let short := if first < 0xb8 then first - 0x80 else if first < 0xc0 then 0
        else if first < 0xf8 then first - 0xc0 else 0
      if rest.length < lenOfLen then 0
      else
        let n := if lenOfLen = 0 then short else beNat (rest.take lenOfLen)
        if rest.length - lenOfLen < n then 0 else 1 + lenOfLen + n

/-- What `next_branch_child` finds in a slot. -/
inductive BranchChild where
  | empty
  | hash (h : Bytes32)
  | embedded (node : Bytes)
  deriving DecidableEq

/-- `next_branch_child`; `none` is `kBad`. -/
def nextBranchChild : Bytes → Option (BranchChild × Bytes)
  | [] => none
  | b₀ :: rest =>
    if b₀ = kEmptyStringCode then some (.empty, rest)
    else if b₀ = 0xa0 then
      if rest.length < 32 then none else some (.hash (FixedBytes.load 32 rest), rest.drop 32)
    else if 0xc0 ≤ b₀ ∧ b₀ ≤ 0xf7 then
      let payload := b₀.toNat - 0xc0
      if 31 < payload ∨ rest.length < payload then none
      else some (.embedded (b₀ :: rest.take payload), rest.drop payload)
    else none

/-- The next `n` slots of a branch, up to the first bad one, and the bytes behind them if there is
none. -/
def branchChildren : (n : ℕ) → Bytes → List BranchChild × Option Bytes
  | 0, cur => ([], some cur)
  | n + 1, cur =>
    match nextBranchChild cur with
    | none => ([], none)
    | some (c, cur) =>
      let (cs, last) := branchChildren n cur
      (c :: cs, last)

/-- A node as the walks tell them apart: a branch by its items, an extension or a leaf by its two
strings. -/
inductive WitnessNode where
  | branch (items : Bytes)
  | short (hp second : Bytes)
  deriving DecidableEq

/-- The two strings of an extension or a leaf. -/
def readShortNode (items : Bytes) : Option WitnessNode := do
  let (h₀, items) ← (decodeHeader items).toOption
  if h₀.list ∨ h₀.payloadLength = 0 ∨ items.length < h₀.payloadLength then none
  let hp := items.take h₀.payloadLength
  let (h₁, items) ← (decodeHeader (items.drop h₀.payloadLength)).toOption
  if h₁.list ∨ items.length < h₁.payloadLength then none
  return .short hp (items.take h₁.payloadLength)

/-- The node of an encoding; a list of two items is an extension or a leaf, any longer one a
branch. -/
def readWitnessNode (nodeRlp : Bytes) : Option WitnessNode := do
  let (oh, body) ← (decodeHeader nodeRlp).toOption
  if oh.list = false then none
  let items := body.take oh.payloadLength
  let s₀ := rlpItemSize items
  let s₁ := if s₀ ≠ 0 then rlpItemSize (items.drop s₀) else 0
  if s₁ = 0 then none
  else if s₀ + s₁ ≠ items.length then return .branch items
  else readShortNode items

/-- Whether a hex-prefix path is a leaf's. -/
def hpIsLeaf (hp : Bytes) : Bool := (hp.headD 0).toNat / 16 / 2 % 2 = 1

/-- The nibbles of a hex-prefix path. -/
def hpNibbles : Bytes → Nibbles
  | [] => []
  | b :: rest =>
    (if b.toNat / 16 % 2 = 1 then (nibblesOf b).drop 1 else []) ++ rest.flatMap nibblesOf

/-- Two nibbles to a byte. -/
def packNibbles : Nibbles → Bytes
  | a :: b :: rest => UInt8.ofNat (16 * a.val + b.val) :: packNibbles rest
  | _ => []

/-- `path_to_bytes32` of a path that is zeroed behind its end. -/
def pathToBytes32 (path : Nibbles) : Bytes32 :=
  FixedBytes.load 32 (packNibbles (path ++ List.replicate (64 - path.length) 0))

/-- What a sweep gathers: the leaves in the order they are visited, and whether a node was
malformed. -/
structure Swept where
  leaves : List (Bytes32 × Bytes) := []
  malformed : Bool := false
  deriving DecidableEq

namespace Swept

/-- Nothing but a malformed node. -/
def bad : Swept := { malformed := true }

/-- One sweep after another. -/
def append (a b : Swept) : Swept := ⟨a.leaves ++ b.leaves, a.malformed || b.malformed⟩

/-- Sweeps one after another. -/
def join (parts : List Swept) : Swept := parts.foldr append {}

end Swept

/-- `descend` and the stack of `sweep`: everything below one node. -/
def sweepNode (findNodeRlp : Bytes32 → Option Bytes) :
    (fuel : ℕ) → (path : Nibbles) → (nodeRlp : Bytes) → Swept
  | 0, _, _ => .bad
  | fuel + 1, path, nodeRlp =>
    match readWitnessNode nodeRlp with
    | none => .bad
    | some (.short hp second) =>
      if 64 < path.length + (hpNibbles hp).length then .bad
      else if hpIsLeaf hp then
        if second = [] ∨ kMaxLeafValueSize < second.length then .bad
        else { leaves := [(pathToBytes32 (path ++ hpNibbles hp), second)] }
      else if second.length ≠ 32 then .bad
      else
        match findNodeRlp (FixedBytes.load 32 second) with
        | none => {}  -- pruned
        | some child => sweepNode findNodeRlp fuel (path ++ hpNibbles hp) child
    | some (.branch items) =>
      if 64 ≤ path.length then .bad
      else
        let (children, last) := branchChildren 16 items
        let below := children.zipIdx.map fun (c, i) =>
          let path := path ++ [Fin.ofNat 16 i]
          match c with
          | .empty => {}
          | .hash h =>
            match findNodeRlp h with
            | none => {}  -- pruned
            | some child => sweepNode findNodeRlp fuel path child
          | .embedded node => sweepNode findNodeRlp fuel path node
        (Swept.join below).append (if last = some [kEmptyStringCode] then {} else .bad)

/-- Fuel for a walk over a store of `n` nodes. -/
def sweepFuel (n : ℕ) : ℕ := 65 * (n + 1)

/-- `sweep`; `none` if the root itself is not stored. -/
def sweep (findNodeRlp : Bytes32 → Option Bytes) (n : ℕ) (root : Bytes32) : Option Swept :=
  (findNodeRlp root).map (sweepNode findNodeRlp (sweepFuel n) [])

/-- The loop of `confirm_absent`: whether the key whose nibbles from here on are `target` is proven
absent below the node. -/
def absentBelow (findNodeRlp : Bytes32 → Option Bytes) :
    (fuel : ℕ) → (target : Nibbles) → (nodeRlp : Bytes) → Bool
  | 0, _, _ => false
  | fuel + 1, target, nodeRlp =>
    match readWitnessNode nodeRlp with
    | none => false
    | some (.branch items) =>
      match target with
      | [] => false
      | s :: target =>
        match (branchChildren 16 items).1[s.val]? with
        | none => false
        | some .empty => true
        | some (.hash h) =>
          match findNodeRlp h with
          | none => false
          | some child => absentBelow findNodeRlp fuel target child
        | some (.embedded node) => absentBelow findNodeRlp fuel target node
    | some (.short hp second) =>
      let path := hpNibbles hp
      if 64 < path.length then false
      else if hpIsLeaf hp ∧ second = [] then false
      -- the path diverges from the key, or outlasts it
      else if path.isPrefixOf target = false then true
      else if hpIsLeaf hp then target.length ≠ path.length
      else if second.length ≠ 32 then false
      else
        match findNodeRlp (FixedBytes.load 32 second) with
        | none => false
        | some child => absentBelow findNodeRlp fuel (target.drop path.length) child

/-- `confirm_absent`. -/
def confirmAbsent (findNodeRlp : Bytes32 → Option Bytes) (n : ℕ) (root targetHash : Bytes32) : Bool :=
  if root = kEmptyRoot then true
  else
    match findNodeRlp root with
    | none => false
    | some node => absentBelow findNodeRlp (sweepFuel n) (nibblesOfKey targetHash) node

end Zilkworm.State
