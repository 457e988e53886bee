/-
# The walk of a witness trie

`core/trie_zz/fold_unfold.hpp` and `grid_mpt.cpp`: `GridMPT` computes the root of a trie after
a list of updates in key order, from the nodes a witness carries.  It keeps the nodes it
has unfolded in a grid of at most 255 lines that name each other by their index, goes down
to each key, changes the grid there, and folds the lines it is done with back into their
parents.

The grid is allocated once and never moves, so it is a function from indices with a size,
as the memory is.  `prevalueCheck` is `state_keeps_prevalue_check`: `DirectState` checks the
claimed pre-value of every key and has read-only updates, `HashState` has neither.  Loops
carry a bound on their rounds: a descent consumes a nibble each round, a climb goes to a
lower line.
-/
import Zilkworm.Trie.Node

namespace Zilkworm.Trie

open Lib Rlp Zilkworm.Types State

/-- `kMaxLines`. -/
def kMaxLines : ℕ := 255

/-- The `parent_depth` of a deleted line. -/
def kDeleted : ℕ := 0xFF

/-- `GridLine`. -/
structure GridLine where
  node : Node
  parentSlot : Fin 16
  parentDepth : ℕ
  consumed : ℕ
  modified : Bool := false
  childDepth : Fin 16 → ℕ := fun _ => 0

/-- `TrieNodeFlat`: an update of a key, with the claimed pre-value and the new value. -/
structure TrieUpdate where
  key : Bytes32
  initialValue : Bytes
  currentValue : Bytes
  deriving DecidableEq

/-- The members of `GridMPT` that a walk changes. -/
structure Grid where
  lines : ℕ → GridLine
  size : ℕ := 0
  depth : ℕ := 0
  cursor : ℕ := 0
  lastWasDelete : Bool := false
  rootUnfolded : Bool := false
  failed : Bool := false

/-- `UnfoldResult`. -/
inductive UnfoldResult where
  | success | empty | missing | undefined
  deriving DecidableEq

/-- What a walk is given besides its updates: the hash, the nodes of the witness, the byte of a
placeholder, and whether pre-values are checked. -/
structure WalkContext where
  keccak256 : Bytes → Bytes32
  /-- `StateT::find_node_rlp`. -/
  findNodeRlp : Bytes32 → Option Bytes
  stale : UInt8
  prevalueCheck : Bool

namespace Grid

variable (ctx : WalkContext) (prevRoot : Bytes32) (key : Nibbles) (value : Bytes) (d : ℕ)
  (slot : Fin 16) (g : Grid)

/-- The walk cannot go on. -/
def fail : Grid := { g with failed := true }

/-- Changes one line. -/
def modifyLine (f : GridLine → GridLine) (g : Grid) : Grid :=
  { g with lines := Function.update g.lines d (f (g.lines d)) }

/-- Marks a line modified. -/
def markModified : Grid → Grid := modifyLine d fun l => { l with modified := true }

/-- `child_depth[slot]` of a line. -/
def setChildDepth (child : ℕ) : Grid → Grid :=
  modifyLine d fun l => { l with childDepth := Function.update l.childDepth slot child }

/-- `link_to_parent` of the line at `depth`. -/
def linkToParent (depth : ℕ) (slot : Fin 16) (parentDepth : ℕ) (g : Grid) : Grid :=
  if depth = 0 then g
  else
    let consumed := (g.lines parentDepth).consumed
    let g := g.modifyLine depth fun l => { l with consumed := (l.consumed + consumed) % 2 ^ 8 }
    g.modifyLine parentDepth fun p =>
      { p with childDepth := Function.update p.childDepth slot depth, node := p.node.placehold slot }

/-- `emplace_line` and `insert_line`: a new last line, if there is room. -/
def insertLine (parentDepth : ℕ) (node : Node) (g : Grid) : Bool × Grid :=
  if kMaxLines ≤ g.size then (false, g.fail)
  else
    let d := g.size
    let line : GridLine := ⟨node, slot, parentDepth, node.consumes, false, fun _ => 0⟩
    (true, linkToParent d slot parentDepth
      { g with lines := Function.update g.lines d line, size := d + 1, depth := d })

/-- `insert_line_at`: over a deleted line, or as a new last one. -/
def insertLineAt (target : ℕ) (slot : Fin 16) (parentDepth : ℕ) (node : Node) (g : Grid) : Grid :=
  if target = g.size then (g.insertLine slot parentDepth node).2
  else
    let line : GridLine := ⟨node, slot, parentDepth, node.consumes, false, fun _ => 0⟩
    linkToParent target slot parentDepth
      { g with lines := Function.update g.lines target line, depth := target }

/-- `has_room`. -/
def hasRoom (lines : ℕ) (g : Grid) : Bool := g.size + lines ≤ kMaxLines

/-- `pop_back`. -/
def popBack : Grid := { g with size := g.size - 1, depth := g.size - 1 - 1 }

/-- `delete_line`: a last line goes, another is marked. -/
def deleteLine : Grid :=
  if d + 1 = g.size then { g with size := g.size - 1 }
  else g.modifyLine d fun l => { l with parentDepth := kDeleted }

/-- `transform_line`: another node in the place of a line's.  The nibbles consumed above the line
are taken from its own count, in 32 bits, and the new count is stored in 8. -/
def transformLine (node : Node) (g : Grid) : Grid :=
  let l := g.lines d
  let parentConsumed := (l.consumed + 2 ^ 32 - l.node.consumes) % 2 ^ 32
  let consumed := (node.consumes + parentConsumed) % 2 ^ 32
  let g := g.modifyLine d fun l => { l with node := node, consumed := consumed % 2 ^ 8 }
  if ¬ node.isLeaf ∧ 255 < consumed then g.fail else g

/-! ## Unfolding -/

/-- `unfold_node_from_rlp`. -/
def unfoldNodeFromRlp (payload : Bytes) (slot : Fin 16) (parentDepth : ℕ) (g : Grid) : Bool × Grid :=
  match fastDecodeHeader payload with
  | none => (false, g.fail)
  | some list =>
    match g.insertLine slot parentDepth (.branch {}) with
    | (false, g) => (false, g)
    | (true, g) =>
      let parentConsumed := (g.lines g.depth).consumed - 1
      let accept (node : Node) : Bool × Grid := (true, g.modifyLine g.depth fun l =>
        { l with node := node, consumed := node.consumes + parentConsumed })
      let reject : Bool × Grid := (false, g.fail.popBack)
      match decodeNode list with
      | none => reject
      | some (.branch cs) => accept (.branch (.unfold payload list cs))
      | some (.short true path value) =>
        if parentConsumed + path.length ≠ 64 then reject else accept (.leaf path value)
      | some (.short false path child) =>
        if path = [] ∨ 63 < parentConsumed + path.length ∨ 32 < child.length then reject
        else accept (.ext path (.ref child))

/-- The node a reference leads to: one in the witness for a hash, the reference itself for an
embedded node. -/
def findRef (b : Bytes) : Option Bytes :=
  if b.length = 32 then ctx.findNodeRlp (FixedBytes.load 32 b) else some b

/-- `unfold_slot`: to the child in a slot of the branch at `depth`. -/
def unfoldSlot : UnfoldResult × Grid :=
  if g.size ≤ g.depth then (.undefined, g.fail)
  else
    match (g.lines g.depth).node with
    | .branch b =>
      let s := (g.lines g.depth).childDepth slot
      if s ≠ 0 then
        if g.size ≤ s then (.undefined, g.fail) else (.success, { g with depth := s })
      else
        let child := (b.child slot).bytes ctx.stale
        if child = [] ∨ child = [0x80] then (.empty, g)
        else
          match findRef ctx child with
          | none => (.missing, g.fail)
          | some rlp =>
            if rlp = [] then (.missing, g.fail)
            else
              match g.unfoldNodeFromRlp rlp slot g.depth with
              | (false, g) => (.missing, g.fail)
              | (true, g') => (.success, g'.setChildDepth g.depth slot g'.depth)
    | _ => (.undefined, g.fail)

/-! ## Deleting -/

/-- `delete_leaf`: the last line takes the leaf's place if it is a sibling. -/
def deleteLeaf : Grid :=
  if d = 0 then g.deleteLine d
  else
    let l := g.lines d
    let g := g.modifyLine l.parentDepth fun p =>
      { p with node := p.node.deleteChild l.parentSlot
               childDepth := Function.update p.childDepth l.parentSlot 0 }
    let back := g.lines (g.size - 1)
    if d ≠ g.size - 1 ∧ back.parentDepth = l.parentDepth then
      let g := (g.modifyLine d fun _ => back).setChildDepth l.parentDepth back.parentSlot d
      g.deleteLine (g.size - 1)
    else g.deleteLine d

/-- `cascade_delete`: an empty line goes with every ancestor it leaves empty.  Returns the first
line that stays, zero for an empty grid. -/
def cascadeDelete : (rounds d : ℕ) → Grid → ℕ × Grid
  | 0, d, g => (d, g)
  | rounds + 1, d, g =>
    if (g.lines d).node.isEmpty then
      if 1 < g.size ∧ 0 < d then
        let l := g.lines d
        let g := g.modifyLine l.parentDepth fun p =>
          { p with node := p.node.deleteChild l.parentSlot
                   childDepth := Function.update p.childDepth l.parentSlot 0
                   modified := true }
        cascadeDelete rounds l.parentDepth (g.deleteLine d)
      else (0, { g with size := 0 })
    else (d, g)

/-! ## Folding -/

/-- A branch with one child becomes an extension, for its child to be merged into. -/
def absorbParent (p : ℕ) (g : Grid) : Grid :=
  match (g.lines p).node with
  | .branch b =>
    match b.singleChild with
    | some kept => (g.transformLine p (.ext [kept] (b.child kept))).markModified p
    | none => g
  | _ => g

/-- A modified line's reference goes into its parent. -/
def foldRef : Grid :=
  let l := g.lines d
  let encoded := l.node.encode ctx.stale
  let g := g.modifyLine l.parentDepth fun p =>
    { p with modified := true
             childDepth := Function.update p.childDepth l.parentSlot 0
             node := p.node.setChild l.parentSlot (childRefOf ctx.keccak256 encoded) }
  g.deleteLine d

/-- The end of `fold_line`: an unmodified line is dropped, a modified one leaves its reference; the
root stays. -/
def foldPlain : Grid :=
  let l := g.lines d
  if g.size ≤ 1 then g
  else if l.modified then foldRef ctx d g
  else (g.setChildDepth l.parentDepth l.parentSlot 0).deleteLine d

/-- `fold_line` from the merge into the parent on. -/
def foldInto : Grid :=
  if 1 < g.size then
    let l := g.lines d
    let g := g.absorbParent l.parentDepth
    match l.node, (g.lines l.parentDepth).node with
    | .ext path child, .ext pathAbove _ =>
      let g := g.modifyLine l.parentDepth fun p =>
        { p with node := .ext (pathAbove ++ path) child
                 childDepth := Function.update p.childDepth l.parentSlot 0
                 modified := true }
      g.deleteLine d
    | .leaf path value, .ext pathAbove _ =>
      ((g.transformLine l.parentDepth (.leaf (pathAbove ++ path) value)).markModified
        l.parentDepth).deleteLine d
    | _, _ => foldPlain ctx d g
  else foldPlain ctx d g

/-- `fold_line` of a line that is no branch. -/
def foldShort : Grid :=
  if (g.lines d).parentDepth = kDeleted then
    if d + 1 = g.size then { g with size := g.size - 1 } else g
  else if (g.lines d).node.isEmpty then (cascadeDelete (d + 1) d g).2
  else foldInto ctx d g

/-- `fold_line`: a branch with one child is absorbed into an extension first, or into its child. -/
def foldLine : Grid :=
  if (g.lines d).parentDepth = kDeleted then
    if d + 1 = g.size then { g with size := g.size - 1 } else g
  else if (g.lines d).node.isEmpty then (cascadeDelete (d + 1) d g).2
  else
    match (g.lines d).node with
    | .branch b =>
      match b.singleChild with
      | none => foldInto ctx d g
      | some nib =>
        match unfoldSlot ctx nib { g with depth := d } with
        | (.success, g) =>
          match (g.lines (g.size - 1)).node, (g.lines d).node with
          | .branch _, .branch b =>
            let g := (g.transformLine d (.ext [nib] (b.child nib))).markModified d
            foldInto ctx d { g.setChildDepth d nib 0 with size := g.size - 1 }
          | _, _ =>
            let g := g.transformLine d (.ext [nib] .empty)
            let g := foldShort ctx ((g.lines d).childDepth nib) g
            if g.size ≤ d ∨ (g.lines d).parentDepth = kDeleted then g else foldInto ctx d g
        | (_, g) => foldInto ctx d g.fail
    | _ => foldInto ctx d g

/-! ## Seeking -/

/-- The nibbles two keys share. -/
def lcp : Nibbles → Nibbles → ℕ
  | a :: as, b :: bs => if a = b then lcp as bs + 1 else 0
  | _, _ => 0

/-- Folds the lines below the one at `depth` that hang under it, from the last one on. -/
def foldBelow (depth : ℕ) : (n : ℕ) → Grid → Grid
  | 0, g => g
  | n + 1, g =>
    let i := depth + n + 1
    foldBelow depth n (if depth ≤ (g.lines i).parentDepth then foldLine ctx i g else g)

/-- The loop of `seek_with_last_insert`: folds and climbs to the first line whose parent the new
key still passes. -/
def climb (shared : ℕ) : (rounds depth : ℕ) → Grid → ℕ × Grid
  | 0, depth, g => (depth, g)
  | rounds + 1, depth, g =>
    let parent := (g.lines depth).parentDepth
    if shared < (g.lines parent).consumed ∧ 0 < depth then
      climb shared rounds parent (foldBelow ctx depth (g.size - 1 - depth) g)
    else (depth, g)

/-- `seek_with_last_insert`: from the place of the key `prev` to one that `cur` passes too. -/
def seekWithLastInsert (cur prev : Nibbles) (g : Grid) : Grid :=
  if g.size ≤ 1 ∨ g.depth = 0 then
    if 0 < g.size ∧ (g.lines 0).node.isEmpty then { g with size := 0 } else g
  else
    let (p, g) := if g.lastWasDelete then cascadeDelete (g.depth + 1) g.depth g
      else ((g.lines g.depth).parentDepth, g)
    if p = 0 then { g with depth := 0 }
    else
      match (g.lines p).node with
      | .branch _ =>
        let consumed := (g.lines p).consumed
        let shared := min (lcp cur prev) consumed
        if consumed ≤ shared ∧ g.lastWasDelete then { g with depth := p, cursor := consumed - 1 }
        else
          let (d, c, g) :=
            if consumed ≤ shared then (g.depth, consumed, g)
            else
              let (d, g) := climb ctx shared (p + 1) p g
              (d, (g.lines (g.lines d).parentDepth).consumed, g)
          let cursor := if d = 0 then 0 else c
          { g with depth := d, cursor := cursor, failed := g.failed || (63 < cursor : Bool) }
      | _ => { g.fail with depth := 0 }

/-! ## The walk -/

/-- `move_line`: the lines of a chain of first children each take the place of the next; the last
is appended.  `prev` is the line placed last, with the slot of the child displaced from it. -/
def moveChain : (rounds : ℕ) → (cache : GridLine) → (prev : Option (ℕ × Fin 16)) → Grid → ℕ × Grid
  | 0, _, _, g => (0, g)
  | rounds + 1, cache, prev, g =>
    let link (d : ℕ) (g : Grid) : Grid := match prev with
      | none => g
      | some (p, slot) => g.setChildDepth p slot d
    let next := if cache.node.isLeaf then none
      else (List.finRange 16).find? fun i => cache.childDepth i ≠ 0
    match next with
    | none =>
      (g.size, link g.size { g with lines := Function.update g.lines g.size cache, size := g.size + 1 })
    | some slot =>
      let d := cache.childDepth slot
      let displaced := g.lines d
      let g := link d (g.modifyLine d fun _ => cache)
      let g := (List.finRange 16).foldl (fun g i =>
        let c := (g.lines d).childDepth i
        if c ≠ 0 ∧ c ≠ d then g.modifyLine c fun l => { l with parentDepth := d } else g) g
      (d, (moveChain rounds { displaced with parentDepth := d } (some (d, slot)) g).2)

/-- `move_line`: frees the line at `d` and returns where it went. -/
def moveLine : ℕ × Grid :=
  let cache := g.lines d
  moveChain (kMaxLines + 1) cache none (g.modifyLine d fun l => { l with parentDepth := kDeleted })

/-- The first deleted line from `d` on, or the place after the last line. -/
def freeLine : (rounds d : ℕ) → ℕ
  | 0, d => d
  | rounds + 1, d =>
    if d < g.size ∧ (g.lines d).parentDepth ≠ kDeleted then freeLine rounds (d + 1) else d

/-- `make_cur_leaf`: the slot and the leaf of the key behind the cursor. -/
def curLeaf : Fin 16 × Node :=
  (key.getD g.cursor 0, .leaf (key.drop (g.cursor + 1)) value)

/-- Inserts the leaf of the key under the branch at `depth`. -/
def insertCurLeaf (branchDepth : ℕ) (g : Grid) : Grid :=
  let (slot, leaf) := g.curLeaf key value
  let (_, g) := g.insertLine slot branchDepth leaf
  g.markModified g.depth

/-- The extension at `depth` shares `m` nibbles with the key and no more: a branch comes there, with
the leaf of the key and what is left of the extension. -/
def splitExt (path : Nibbles) (child : ChildRef) (m : ℕ) (g : Grid) :
    Grid :=
  let e := g.depth
  let lastNib := path.getLastD 0
  let oldChild := (g.lines e).childDepth lastNib
  let newExtLen := path.length - m - 1
  let d₁ := if 0 < m ∨ 0 < newExtLen then g.freeLine kMaxLines (e + 1) else 0
  let d₂ := if 0 < newExtLen ∧ 0 < m then g.freeLine kMaxLines (d₁ + 1) else 0
  -- an unfolded child gives way to the lines that come before it
  let (d₁, oldChild, g) := if oldChild ≠ 0 ∧ oldChild < d₁ then
      (oldChild, g.moveLine oldChild) else (d₁, oldChild, g)
  let (d₂, oldChild, g) := if oldChild ≠ 0 ∧ oldChild < d₂ then
      (oldChild, g.moveLine oldChild) else (d₂, oldChild, g)
  let (d₁, g) :=
    if 0 < m then
      let newSlot := path.getD (m - 1) 0
      let g := g.modifyLine e fun l =>
        { l with node := .ext (path.take m) .pending
                 consumed := (l.consumed + 2 ^ 32 - 1 - newExtLen) % 2 ^ 8
                 modified := true }
      let g := (g.insertLineAt d₁ newSlot e (.branch {})).markModified d₁
      (0, if lastNib ≠ newSlot then g.setChildDepth e lastNib 0 else g)
    else
      let g := g.transformLine e (.branch {})
      (d₁, (g.markModified e).setChildDepth e lastNib 0)
  let branchDepth := g.depth
  let g :=
    if 0 < newExtLen then
      let d₁ := if d₁ = 0 then d₂ else d₁
      (g.insertLineAt d₁ (path.getD m 0) g.depth (.ext (path.drop (m + 1)) child)).markModified d₁
    else g.modifyLine g.depth fun l => { l with node := l.node.setChild lastNib child }
  let g :=
    if oldChild ≠ 0 then
      let g := g.modifyLine oldChild fun l => { l with parentDepth := g.depth }
      g.setChildDepth g.depth (g.lines oldChild).parentSlot oldChild
    else g
  insertCurLeaf key value branchDepth g

/-- The leaf at `depth` shares `cp` nibbles with the key and no more: a branch comes there, with
both leaves, behind an extension of the shared nibbles. -/
def splitLeaf (path : Nibbles) (oldValue : Bytes) (cp : ℕ) (g : Grid) :
    Grid :=
  let g :=
    if 0 < cp then
      let d := g.depth
      let g : Grid := { g.transformLine d (.ext (path.take cp) .empty) with cursor := g.cursor + cp }
      (g.insertLine (path.getD (cp - 1) 0) d (.branch {})).2
    else g.transformLine g.depth (.branch {})
  let branchDepth := g.depth
  let (slot, leaf) := g.curLeaf key value
  let (_, g) := g.insertLine (path.getD cp 0) branchDepth (.leaf (path.drop (cp + 1)) oldValue)
  let g := g.markModified g.depth
  let (_, g) := g.insertLine slot branchDepth leaf
  g.markModified g.depth

/-- `claims_absent`. -/
def claimsAbsent (u : TrieUpdate) : Bool := u.initialValue = [] ∨ u.initialValue = [0x80]

/-- The leaf at `depth` is the key's: its value is checked, deleted or changed. -/
def updateLeaf (u : TrieUpdate) (path : Nibbles) (value : Bytes) (g : Grid) : Grid :=
  if ctx.prevalueCheck ∧ value ≠ u.initialValue then g.fail
  else if ctx.prevalueCheck ∧ u.currentValue = [] then g
  else if u.currentValue = [0x80] then
    let p := (g.lines g.depth).parentDepth
    let g : Grid := { g.deleteLeaf g.depth with lastWasDelete := true, depth := p }
    if g.size ≠ 0 then g.markModified p else g
  else if value ≠ u.currentValue then
    g.modifyLine g.depth fun l => { l with node := .leaf path u.currentValue, modified := true }
  else g

/-- The main loop of `calc_root_impl` for one update: down from `depth`, a node a round. -/
def descend (u : TrieUpdate) : (rounds : ℕ) → Grid → Grid
  | 0, g => g.fail
  | rounds + 1, g =>
    match (g.lines g.depth).node with
    | .branch _ =>
      if 64 ≤ g.cursor then g.fail
      else
        match unfoldSlot ctx (key.getD g.cursor 0) g with
        | (.success, g) => descend u rounds { g with cursor := g.cursor + 1 }
        | (.empty, g) =>
          if !claimsAbsent u then g.fail
          else if u.currentValue = [] then { g with lastWasDelete := true }
          else if !g.hasRoom 1 then g.fail
          else insertCurLeaf key u.currentValue g.depth g
        | (_, g) => g.fail
    | .ext path child =>
      if 64 ≤ g.cursor then g.fail
      else
        let m := lcp path (key.drop g.cursor)
        let g := { g with cursor := g.cursor + m }
        if m = path.length then
          if (g.lines g.depth).childDepth (path.getLastD 0) ≠ 0 then descend u rounds g
          else
            match findRef ctx (child.bytes ctx.stale) with
            | none => g.fail
            | some rlp =>
              match g.unfoldNodeFromRlp rlp (path.getLastD 0) g.depth with
              | (false, g) => g.fail
              | (true, g) => descend u rounds g
        else if !claimsAbsent u then g.fail
        else if u.currentValue = [] then
          { g with depth := (g.lines g.depth).parentDepth, lastWasDelete := true }
        else if !g.hasRoom 5 then g.fail
        else splitExt key u.currentValue path child m g
    | .leaf path value =>
      let cp := lcp path (key.drop g.cursor)
      if g.cursor + cp = 64 then updateLeaf ctx u path value g
      else if !claimsAbsent u then g.fail
      else if u.currentValue = [] then g
      else if !g.hasRoom 3 then g.fail
      else splitLeaf key u.currentValue path value cp g

/-- One update of `calc_root_impl`; `prev` is the key before it. -/
def applyUpdate (prev : Option Nibbles) (u : TrieUpdate) (g : Grid) : Grid :=
  let key := nibblesOfKey u.key
  let g : Grid := { g with cursor := 0 }
  let g : Grid := match prev with
    | some p => if g.size ≠ 0 then g.seekWithLastInsert ctx key p else g
    | none => g
  if g.size = 0 then
    if !claimsAbsent u then g.fail
    else if u.currentValue = [] then g
    else
      (insertLine 0 0 (.leaf key u.currentValue)
        { g with lastWasDelete := false, rootUnfolded := false }).2
  else descend ctx key u 66 { g with lastWasDelete := false }

/-- The updates in order.  The source returns at a failure inside an update; one that a seek flags
goes on to the end, and is a failure all the same. -/
def applyUpdates : (prev : Option Nibbles) → List TrieUpdate → Grid → Grid
  | _, [], g => g
  | prev, u :: us, g => applyUpdates (some (nibblesOfKey u.key)) us (applyUpdate ctx prev u g)

/-- Folds every line but the root, from the last one on. -/
def foldAll : (rounds : ℕ) → Grid → Grid
  | 0, g => g
  | rounds + 1, g => if 1 < g.size then foldAll rounds (foldLine ctx (g.size - 1) g) else g

/-- `init_from_root`. -/
def initFromRoot : Grid :=
  let g : Grid := { lines := fun _ => ⟨.leaf [] [], 0, 0, 0, false, fun _ => 0⟩ }
  if prevRoot = kEmptyRoot then g
  else
    match ctx.findNodeRlp prevRoot with
    | none => g.fail
    | some rlp =>
      match g.unfoldNodeFromRlp rlp 0 0 with
      | (false, g) => g.fail
      | (true, g) => { g with rootUnfolded := true }

/-- The root of a grid of which only the folded root line is left. -/
def rootOf : Bytes32 :=
  if g.size = 0 then kEmptyRoot
  else if g.rootUnfolded ∧ ¬ (g.lines 0).modified then prevRoot
  else ctx.keccak256 ((g.lines 0).node.encode ctx.stale)

/-- **`calc_root_from_updates`** on a fresh walk from `prevRoot`: the new root, or none if the walk
failed. -/
def calcRootFromUpdates (updates : List TrieUpdate) :
    Option Bytes32 :=
  let g := initFromRoot ctx prevRoot
  if g.failed then none
  else
    let g := foldAll ctx kMaxLines (applyUpdates ctx none updates g)
    let g := if g.size = 0 then g else foldLine ctx 0 g
    if g.failed then none else some (rootOf ctx prevRoot g)

end Grid

end Zilkworm.Trie
