/-
# Three readers of one node

A node's payload is read in three places: by `decode_node` when the grid unfolds it, by the pair
`decode_branch` and `decode_ext_or_leaf`, and by the walks of `HashState`, which size the first two
items and then read slots with `next_branch_child`, or two strings.  They are compared on all byte
strings.  Where they disagree the payload is one of three kinds: two strings that make an extension
whose child is no hash, or a leaf whose value is empty or too long; a branch with a slot only
`decode_node` takes, or with an embedded node of 32 bytes; a branch with a value, which only
`decode_branch` takes.
-/
import Zilkworm.State.TrieSweep
import Zilkworm.Trie.Slots

namespace Zilkworm.Trie

open List Lib Rlp Zilkworm.Types State

variable {p payload rest src : Bytes} {it : Item} {i : Fin 16}

/-! ## The readers -/

/-- `decode_branch`: the references and the value. -/
def decodeBranch (payload : Bytes) : Option (List ChildRef × Bytes) := do
  let (cs, remaining) ← fillBranchChildren 16 payload
  if remaining = [kEmptyStringCode] then return (cs, [])
  else
    let (h, src) ← (decodeHeader remaining).toOption
    if h.list ∨ src.drop h.payloadLength ≠ [] then none else return (cs, src.take h.payloadLength)

/-- `decode_ext_or_leaf`: whether it is a leaf, the path, and the value or the child; a child that
is no hash keeps its header. -/
def decodeExtOrLeaf (payload : Bytes) : Option (Bool × Nibbles × Bytes) := do
  let (h₁, src) ← (decodeHeader payload).toOption
  if h₁.list then none
  else
    let (isLeaf, path) ← hpDecode (src.take h₁.payloadLength)
    let start := src.drop h₁.payloadLength
    let (h₂, src) ← (decodeHeader start).toOption
    if h₂.list ∨ src.drop h₂.payloadLength ≠ [] then none
    else if isLeaf ∨ h₂.payloadLength = 32 then return (isLeaf, path, src.take h₂.payloadLength)
    else return (isLeaf, path, start.take (start.length - src.length + h₂.payloadLength))

/-- A node as it is classified: a branch with an empty value or with another, a leaf or an
extension. -/
inductive Reading where
  | branch (children : List BranchChild)
  | valued (children : List BranchChild) (value : Bytes)
  | leaf (path : Nibbles) (value : Bytes)
  | ext (path : Nibbles) (child : Bytes)
  deriving DecidableEq

/-- A reference by its length, which is how the grid tells a hash from an embedded node. -/
def ChildRef.reading : ChildRef → BranchChild
  | .empty | .pending => .empty
  | .ref b => if b.length = 32 then .hash (FixedBytes.load 32 b) else .embedded b

/-- What `decode_node` makes of a payload. -/
def readByNode (payload : Bytes) : Option Reading :=
  (decodeNode payload).map fun
    | .branch cs => .branch (cs.map ChildRef.reading)
    | .short true path second => .leaf path second
    | .short false path second => .ext path second

/-- What `decode_branch` and `decode_ext_or_leaf` make of it, which `walk_tree` calls one after the
other. -/
def readByPair (payload : Bytes) : Option Reading :=
  match decodeBranch payload with
  | some (cs, value) =>
    some (if value = [] then .branch (cs.map ChildRef.reading)
      else .valued (cs.map ChildRef.reading) value)
  | none =>
    (decodeExtOrLeaf payload).map fun
      | (true, path, second) => .leaf path second
      | (false, path, second) => .ext path second

/-- The node the walks of `HashState` see in a payload. -/
def readPayload (items : Bytes) : Option WitnessNode :=
  let s₀ := rlpItemSize items
  let s₁ := if s₀ ≠ 0 then rlpItemSize (items.drop s₀) else 0
  if s₁ = 0 then none else if s₀ + s₁ ≠ items.length then some (.branch items) else readShortNode items

/-- What the sweep of `HashState` makes of a payload at the root, where a path has all its room. -/
def readBySweep (payload : Bytes) : Option Reading :=
  match readPayload payload with
  | none => none
  | some (.short hp second) =>
    if 64 < (hpNibbles hp).length then none
    else if hpIsLeaf hp then
      if second = [] ∨ kMaxLeafValueSize < second.length then none
        else some (.leaf (hpNibbles hp) second)
    else if second.length ≠ 32 then none
    else some (.ext (hpNibbles hp) second)
  | some (.branch items) =>
    match branchChildren 16 items with
    | (children, some last) => if last = [kEmptyStringCode] then some (.branch children) else none
    | (_, none) => none

/-- A list that is a node is read by its payload alone. -/
theorem readWitnessNode_eq {nodeRlp body : Bytes} {h : Header}
    (hd : decodeHeader nodeRlp = .ok (h, body))
    (hl : h.list = true) : readWitnessNode nodeRlp = readPayload (body.take h.payloadLength) := by
  unfold readWitnessNode readPayload
  rw [hd]
  simp only [Except.toOption, Option.bind_eq_bind, Option.bind_some, hl]
  rfl

/-- **The sweep reads a node as its payload says.**  A payload that `readBySweep` refuses marks the
witness as malformed; a leaf is emitted, and an extension or a branch is followed into its children.
-/
theorem sweepNode_reading (findNodeRlp : Bytes32 → Option Bytes) (fuel : ℕ) {nodeRlp body : Bytes}
    {h : Header} (hd : decodeHeader nodeRlp = .ok (h, body)) (hl : h.list = true) :
    match readBySweep (body.take h.payloadLength) with
    | none | some (.valued _ _) => (sweepNode findNodeRlp (fuel + 1) [] nodeRlp).malformed = true
    | some (.leaf path value) =>
      sweepNode findNodeRlp (fuel + 1) [] nodeRlp = { leaves := [(pathToBytes32 path, value)] }
    | some (.ext path child) =>
      sweepNode findNodeRlp (fuel + 1) [] nodeRlp =
        match findNodeRlp (FixedBytes.load 32 child) with
        | none => {}
        | some node => sweepNode findNodeRlp fuel path node
    | some (.branch children) =>
      sweepNode findNodeRlp (fuel + 1) [] nodeRlp =
        Swept.join (children.zipIdx.map fun (c, i) =>
          match c with
          | .empty => {}
          | .hash h =>
            match findNodeRlp h with
            | none => {}
            | some child => sweepNode findNodeRlp fuel [Fin.ofNat 16 i] child
          | .embedded node => sweepNode findNodeRlp fuel [Fin.ofNat 16 i] node) := by
  rw [sweepNode, readWitnessNode_eq hd hl, readBySweep]
  rcases readPayload (body.take h.payloadLength) with _ | ⟨items | ⟨hp, second⟩⟩
  · rfl
  · have hbad : ∀ a : Swept, (a.append .bad).malformed = true := fun a => Bool.or_true _
    have hempty : ∀ a : Swept, a.append {} = a := fun a => by
      rw [Swept.append, append_nil, Bool.or_false]
    simp only [length_nil, nil_append, if_neg (show ¬ 64 ≤ 0 by decide)]
    rcases branchChildren 16 items with ⟨cs, _ | last⟩
    · exact hbad _
    · by_cases hlast : last = [kEmptyStringCode]
      · simp only [hlast, if_true]
        exact hempty _
      · simp only [hlast, if_false, Option.some.injEq]
        exact hbad _
  · simp only [length_nil, Nat.zero_add, nil_append]
    by_cases hlong : 64 < (hpNibbles hp).length
    · simp only [if_pos hlong]
      rfl
    · simp only [if_neg hlong]
      by_cases hleaf : hpIsLeaf hp = true
      · simp only [if_pos hleaf]
        by_cases hval : second = [] ∨ kMaxLeafValueSize < second.length
        · simp only [if_pos hval]
          rfl
        · simp only [if_neg hval]
      · simp only [if_neg hleaf]
        by_cases h32 : second.length ≠ 32
        · simp only [if_pos h32]
          rfl
        · cases hfind : findNodeRlp (.load 32 second) <;> simp only [if_neg h32, hfind]

/-! ## Slots -/

/-- What `next_branch_child` makes of an item. -/
def slotChild (it : Item) : Option BranchChild :=
  (slotRef it).map fun
    | .empty | .pending => .empty
    | .ref b => if it.list then .embedded b else .hash (FixedBytes.load 32 b)

/-- `next_branch_child` takes what `fill_branch_child_rlp` takes, and tells a hash by its first
byte. -/
theorem nextBranchChild_eq (src : Bytes) :
    nextBranchChild src = (fillBranchChildRlp src).map fun r => (match r.1 with
      | .empty | .pending => .empty
      | .ref b => if src.headD 0 = 0xa0 then .hash (FixedBytes.load 32 b) else .embedded b, r.2) := by
  cases src with
  | nil => rfl
  | cons b rest =>
    rw [nextBranchChild, fillBranchChildRlp]
    by_cases ha0 : b = 0xa0
    · subst ha0
      rw [if_neg (by decide), if_pos rfl, if_pos rfl]
      split
      · rfl
      · rename_i hlen
        have hload : FixedBytes.load 32 rest = FixedBytes.load 32 (rest.take 32) := by
          refine Subtype.ext ?_
          rw [FixedBytes.load_val (by omega), FixedBytes.load_val (by rw [length_take]; omega),
            take_take, min_self]
        rw [hload]
        rfl
    · rw [if_neg ha0, if_neg ha0]
      split
      · rfl
      · split
        · dsimp only
          split
          · rfl
          · rw [Option.map_some]
            dsimp only
            rw [headD_cons, if_neg ha0]
        · rfl

theorem nextBranchChild_eq_some {c : BranchChild} :
    nextBranchChild src = some (c, rest) ↔ ∃ it, src = it.encode ++ rest ∧ slotChild it = some c := by
  -- the first byte of an item that is taken says whether it is a list
  have hhead : ∀ {it : Item} {r : ChildRef}, slotRef it = some r → r ≠ .empty →
      (it.encode.headD 0 = 0xa0 ↔ ¬ it.list = true) := by
    intro it r hr hne
    constructor
    · intro h hl
      rw [(hash_of_head h).1] at hl
      cases hl
    · intro hl
      unfold slotRef at hr
      rw [if_neg hl] at hr
      split at hr
      · cases hr
        exact absurd rfl hne
      · split at hr
        · rename_i hn
          rw [encode_hash (by simpa using hl) hn]
          rfl
        · cases hr
  rw [nextBranchChild_eq]
  constructor
  · intro h
    obtain ⟨⟨r, rest'⟩, hr, h⟩ := Option.map_eq_some_iff.mp h
    obtain ⟨it, rfl, hit⟩ := fillBranchChildRlp_eq_some.mp hr
    cases h
    refine ⟨it, rfl, ?_⟩
    rw [slotChild, hit, Option.map_some, headD_encode_append]
    cases r with
    | empty => rfl
    | pending => rfl
    | ref b =>
      simp only [hhead hit (by simp), ite_not]
  · rintro ⟨it, rfl, hc⟩
    obtain ⟨r, hit, rfl⟩ := Option.map_eq_some_iff.mp hc
    rw [fillBranchChildRlp_encode hit, Option.map_some, headD_encode_append]
    cases r with
    | empty => rfl
    | pending => rfl
    | ref b =>
      simp only [hhead hit (by simp), ite_not]

theorem branchChildren_iff_scan {n : ℕ} {cs : List BranchChild} :
    branchChildren n src = (cs, some rest) ↔ scan nextBranchChild n src = some (cs, rest) := by
  induction n generalizing src cs rest with
  | zero =>
    rw [branchChildren, scan, Prod.mk.injEq, Option.some.injEq, Option.some.injEq, Prod.mk.injEq]
  | succ n ih =>
    rw [branchChildren, scan]
    rcases nextBranchChild src with _ | ⟨c, mid⟩
    · simp
    · rcases hm : branchChildren n mid with ⟨cs', _ | last⟩
      · have hnone : scan nextBranchChild n mid = none := by
          rcases hs : scan nextBranchChild n mid with _ | ⟨cs'', last⟩
          · rfl
          · rw [ih.mpr hs] at hm
            cases hm
        simp [hm, hnone]
      · simp [hm, ih.mp hm]

/-- The sweep's loop takes sixteen items, each one a slot may hold. -/
theorem branchChildren_eq_some {n : ℕ} {cs : List BranchChild} :
    branchChildren n src = (cs, some rest) ↔
      ∃ its : List Item, its.length = n ∧ src = (its.map Item.encode).flatten ++ rest ∧
        its.mapM slotChild = some cs :=
  branchChildren_iff_scan.trans (scan_eq_some nextBranchChild_eq_some)

/-! ## What a slot may hold -/

/-- An item that every reader takes in a slot. -/
def InSlot (it : Item) : Prop :=
  if it.list then it.data.length ≤ 31 else it.data.length = 0 ∨ it.data.length = 32

/-- An item `decode_node` takes in the first two slots. -/
def InLead (it : Item) : Prop := it.data.length ≤ 31 ∨ it.list = false ∧ it.data.length = 32

/-- An item `decode_node` takes in a slot. -/
def Readable (i : Fin 16) (it : Item) : Prop := if i.val < 2 then InLead it else InSlot it

/-- An item on which the readers disagree: an embedded node of 32 bytes, and in the first two slots
an item the other readers refuse, or the empty list, which is an empty slot there and elsewhere a
node. -/
def Contested (i : Fin 16) (it : Item) : Prop :=
  it.list = true ∧ it.data.length = 31 ∨ i.val < 2 ∧ (¬ InSlot it ∨ it = emptyListItem)

theorem slotRef_isSome : (slotRef it).isSome = true ↔ InSlot it := by
  unfold slotRef InSlot
  split
  · split <;> simp_all
  · split
    · simp_all
    · split <;> simp_all

theorem leadRef_isSome : (leadRef it).isSome = true ↔ InLead it := by
  unfold leadRef fillBranchChild InLead
  split
  · simp_all
  · split
    · rename_i ha0
      split
      · rename_i hn
        refine ⟨fun h => (by cases h), ?_⟩
        rintro (h | ⟨hl, h⟩)
        · omega
        · refine absurd ?_ ha0
          rw [encode_hash hl h]
          rfl
      · rename_i hn
        exact ⟨fun _ => .inl (by omega), fun _ => rfl⟩
    · rename_i ha0
      exact ⟨fun _ => .inr (hash_of_head (not_not.mp ha0)), fun _ => rfl⟩

theorem readAt_isSome : (readAt i it).isSome = true ↔ Readable i it := by
  unfold readAt Readable
  split
  · exact leadRef_isSome
  · exact slotRef_isSome

theorem InSlot.inLead (h : InSlot it) : InLead it := by
  unfold InSlot at h
  split at h
  · exact .inl h
  · rename_i hl
    rcases h with h | h
    · exact .inl (by omega)
    · exact .inr ⟨by simpa using hl, h⟩

theorem InSlot.readable (h : InSlot it) : Readable i it := by
  unfold Readable
  split
  · exact h.inLead
  · exact h

/-- The two readings of a reference differ on embedded nodes of 32 bytes. -/
theorem slotChild_eq_reading :
    (slotRef it).map ChildRef.reading = slotChild it ↔ ¬ (it.list = true ∧ it.data.length = 31) := by
  unfold slotChild slotRef
  split
  case isTrue hl =>
    split
    case isTrue hn =>
      have hlen : it.encode.length = it.data.length + 1 := by
        rw [encode_list_short hl (by omega), length_cons]
      simp only [Option.map_some, Option.some.injEq, ChildRef.reading, hl, true_and]
      split
      · simp only [reduceCtorEq, false_iff, not_not]
        omega
      · simp only [true_iff]
        omega
    case isFalse hn =>
      simp only [Option.map_none, true_iff]
      omega
  case isFalse hl =>
    refine iff_of_true ?_ fun h => hl h.1
    split
    · rfl
    · split
      · rename_i hn
        simp only [Option.map_some, ChildRef.reading, if_pos hn]
      · rfl

theorem leadRef_eq_slotRef (h : InSlot it) (hne : it ≠ emptyListItem) :
    leadRef it = slotRef it := by
  obtain ⟨list, data, hfits⟩ := it
  unfold leadRef fillBranchChild slotRef
  unfold InSlot at h
  cases list with
  | false =>
    simp only [Bool.false_eq_true, if_false] at h ⊢
    rcases h with h | h
    · obtain rfl := length_eq_zero_iff.mp h
      rfl
    · have henc := @encode_hash ⟨false, data, hfits⟩ rfl h
      have hdata : data ≠ [] := by
        rintro rfl
        cases h
      rw [if_neg hdata, if_neg hdata, if_pos h, if_neg]
      rw [henc]
      exact fun hn => hn rfl
  | true =>
    simp only [if_true] at h ⊢
    have hdata : data ≠ [] := by
      rintro rfl
      exact hne rfl
    have henc := @encode_list_short ⟨true, data, hfits⟩ rfl (by dsimp only; omega)
    have hhead : (Item.encode ⟨true, data, hfits⟩).headD 0 ≠ 0xa0 := by
      intro h0
      cases (hash_of_head h0).1
    rw [if_neg hdata, if_pos hhead, if_neg (by omega), if_pos h, henc]
    rfl

/-- **One slot.**  Of an item `decode_node` takes, it and the sweep make the same exactly if the
item is not contested. -/
theorem readAt_eq_slotChild (h : Readable i it) :
    (readAt i it).map ChildRef.reading = slotChild it ↔ ¬ Contested i it := by
  unfold Contested
  by_cases hi : i.val < 2
  · rw [readAt, if_pos hi]
    rw [Readable, if_pos hi] at h
    obtain ⟨r, hr⟩ := Option.isSome_iff_exists.mp (leadRef_isSome.mpr h)
    by_cases hslot : InSlot it
    · by_cases hne : it = emptyListItem
      · subst hne
        refine iff_of_false ?_ (not_not.mpr (.inr ⟨hi, .inr rfl⟩))
        decide
      · rw [leadRef_eq_slotRef hslot hne, slotChild_eq_reading]
        simp [hi, hslot, hne]
    · have hnone : slotChild it = none := by
        rw [slotChild, Option.not_isSome_iff_eq_none.mp (slotRef_isSome.not.mpr hslot)]
        rfl
      rw [hnone, hr]
      simp [hi, hslot]
  · rw [readAt, if_neg hi, slotChild_eq_reading]
    simp [hi]

/-! ## Sizes of items -/

theorem rlpItemSize_header {list : Bool} {data : Bytes} (hn : data.length < 2 ^ 64) (rest : Bytes) :
    rlpItemSize (encodeHeader ⟨list, data.length⟩ ++ (data ++ rest)) =
      (encodeHeader ⟨list, data.length⟩).length + data.length := by
  unfold encodeHeader
  dsimp only
  split
  case isTrue h56 =>
    have hb : (UInt8.ofNat ((if list then 0xC0 else 0x80) + data.length)).toNat =
        (if list then 0xC0 else 0x80) + data.length := by
      rw [UInt8.toNat_ofNat']
      split <;> omega
    rw [cons_append, nil_append, rlpItemSize, hb]
    have hlen : ¬ (data ++ rest).length < data.length := by
      rw [length_append]
      omega
    cases list with
    | false =>
      have h80 : ¬ 0x80 + data.length < 0x80 := by omega
      have hb8 : 0x80 + data.length < 0xb8 := by omega
      simp only [Bool.false_eq_true, if_false, h80, hb8, if_true, Nat.not_lt_zero, Nat.sub_zero,
        Nat.add_sub_cancel_left, hlen, length_singleton, Nat.add_zero]
    | true =>
      have h80 : ¬ 0xC0 + data.length < 0x80 := by omega
      have hb8 : ¬ 0xC0 + data.length < 0xb8 := by omega
      have hc0 : ¬ 0xC0 + data.length < 0xc0 := by omega
      have hf8 : 0xC0 + data.length < 0xf8 := by omega
      simp only [if_true, h80, hb8, hc0, hf8, if_false, Nat.not_lt_zero, Nat.sub_zero,
        Nat.add_sub_cancel_left, hlen, length_singleton, Nat.add_zero]
  case isFalse h56 =>
    have hk := toBigCompact_length (show data.length < 256 ^ 8 by omega)
    have hval := beNat_toBigCompact data.length
    have hpos : 1 ≤ (toBigCompact data.length).length := by
      rcases hc : toBigCompact data.length with _ | ⟨b, bs⟩
      · rw [hc, show beNat [] = 0 from rfl] at hval
        omega
      · exact Nat.le_add_left 1 bs.length
    have htake : (toBigCompact data.length ++ (data ++ rest)).take (toBigCompact data.length).length =
        toBigCompact data.length := take_left
    have hlen : (toBigCompact data.length ++ (data ++ rest)).length =
        (toBigCompact data.length).length + (data.length + rest.length) := by
      rw [length_append, length_append]
    set digits := toBigCompact data.length
    have hb : (UInt8.ofNat ((if list then 0xF7 else 0xB7) + digits.length)).toNat =
        (if list then 0xF7 else 0xB7) + digits.length := by
      rw [UInt8.toNat_ofNat']
      split <;> omega
    have hhead : ¬ (digits ++ (data ++ rest)).length < digits.length := by omega
    have htail : ¬ (digits ++ (data ++ rest)).length - digits.length < data.length := by omega
    have hne : digits.length ≠ 0 := by omega
    rw [cons_append, rlpItemSize, hb]
    cases list with
    | false =>
      have h80 : ¬ 0xB7 + digits.length < 0x80 := by omega
      have hb8 : ¬ 0xB7 + digits.length < 0xb8 := by omega
      have hc0 : 0xB7 + digits.length < 0xc0 := by omega
      simp only [Bool.false_eq_true, if_false, h80, hb8, hc0, if_true,
        Nat.add_sub_cancel_left, hhead, hne, htake, hval, htail, length_cons]
      omega
    | true =>
      have h80 : ¬ 0xF7 + digits.length < 0x80 := by omega
      have hb8 : ¬ 0xF7 + digits.length < 0xb8 := by omega
      have hc0 : ¬ 0xF7 + digits.length < 0xc0 := by omega
      have hf8 : ¬ 0xF7 + digits.length < 0xf8 := by omega
      simp only [if_true, h80, hb8, hc0, hf8, if_false, Nat.add_sub_cancel_left, hhead, hne, htake,
        hval, htail, length_cons]
      omega

/-- `rlp_item_size` of an item is the length of its encoding. -/
theorem rlpItemSize_encode (it : Item) (rest : Bytes) :
    rlpItemSize (it.encode ++ rest) = it.encode.length := by
  rcases it.encode_cases with ⟨b, hb, -, -, henc⟩ | henc
  · rw [henc, cons_append, rlpItemSize,
      if_pos (by simpa [kEmptyStringCode, UInt8.lt_iff_toNat_lt] using hb)]
    rfl
  · rw [henc, append_assoc, rlpItemSize_header it.fits, length_append]

theorem encode_length_ne_zero (it : Item) : it.encode.length ≠ 0 := fun h =>
  it.encode_ne_nil (length_eq_zero_iff.mp h)

/-! ## Branches as `decode_branch` reads them -/

/-- What follows a header that decodes is the item, and the rest. -/
theorem nextItem_of_toOption {body : Bytes} {h : Header}
    (hd : (decodeHeader src).toOption = some (h, body)) :
    ∃ it : Item, it.list = h.list ∧ it.data = body.take h.payloadLength ∧
      src = it.encode ++ body.drop h.payloadLength := by
  rcases hsrc : decodeHeader src with e | ⟨h', body'⟩
  · rw [hsrc] at hd
    cases hd
  · rw [hsrc] at hd
    cases hd
    obtain ⟨it, hl, hdata, -, hit⟩ := nextItem_of_header hsrc
    exact ⟨it, hl, hdata, nextItem_eq_some.mp hit⟩

/-- **What `decode_branch` takes**: sixteen items that fit their slots, and a string. -/
theorem decodeBranch_eq_some {v : Bytes} {cs : List ChildRef} :
    decodeBranch p = some (cs, v) ↔ ∃ (its : List Item) (value : Item), its.length = 16 ∧
      p = (its.map Item.encode).flatten ++ value.encode ∧ its.mapM slotRef = some cs ∧
        value.list = false ∧ value.data = v := by
  constructor
  · intro hp
    obtain ⟨⟨cs', remaining⟩, hfill, h⟩ := Option.bind_eq_some_iff.mp hp
    obtain ⟨its, hlen, rfl, hcs⟩ := fillBranchChildren_eq_some.mp hfill
    dsimp only at h
    split at h
    case isTrue hrem =>
      cases h
      exact ⟨its, .empty, hlen, by rw [hrem, Item.encode_empty], hcs, rfl, rfl⟩
    case isFalse hrem =>
      obtain ⟨⟨hdr, src⟩, hd, h⟩ := Option.bind_eq_some_iff.mp h
      split at h
      case isTrue => cases h
      case isFalse hrest =>
        rw [not_or, not_not, Bool.not_eq_true] at hrest
        cases h
        obtain ⟨it, hl, hdata, hsrc⟩ := nextItem_of_toOption hd
        rw [hrest.2, append_nil] at hsrc
        exact ⟨its, it, hlen, by rw [hsrc], hcs, hl.trans hrest.1, hdata⟩
  · rintro ⟨its, value, hlen, rfl, hcs, hl, rfl⟩
    rw [decodeBranch, fillBranchChildren_eq_some.mpr ⟨its, hlen, rfl, hcs⟩]
    by_cases hempty : value.encode = [kEmptyStringCode]
    · -- the empty value, whichever way it is read
      have hitems : ([value].map Item.encode).flatten ++ [] =
          ([Item.empty].map Item.encode).flatten ++ [] := by
        simpa using hempty
      obtain rfl : value = .empty := by simpa using (items_unique (by rfl) hitems).1
      rfl
    · have hd := decodeHeader_encode value []
      rw [append_nil, append_nil] at hd
      simp [hempty, hd, hl, Except.toOption]

/-! ## Two items -/

section TwoItems

variable (path second : Item)

/-- A leaf or an extension by its two strings; `pick` is what is made of the path and the second. -/
def readTwo (pick : Bool → Nibbles → Option Reading) : Option Reading :=
  if path.list ∨ second.list then none else (hpDecode path.data).bind fun hp => pick hp.1 hp.2

theorem decodeBranch_two : decodeBranch (path.encode ++ second.encode) = none := by
  rcases h : decodeBranch (path.encode ++ second.encode) with _ | ⟨cs, v⟩
  · rfl
  · obtain ⟨its, value, hlen, heq, -⟩ := decodeBranch_eq_some.mp h
    match its, hlen with
    | it₀ :: it₁ :: it₂ :: its, _ =>
    have hitems : ([path, second].map Item.encode).flatten ++ [] =
        ([it₀, it₁].map Item.encode).flatten ++
          (it₂.encode ++ ((its.map Item.encode).flatten ++ value.encode)) := by
      simpa using heq
    obtain ⟨-, hnil⟩ := items_unique (by rfl) hitems
    exact absurd (append_eq_nil_iff.mp hnil.symm).1 it₂.encode_ne_nil

/-- `decode_node` on two items. -/
theorem readByNode_two :
    readByNode (path.encode ++ second.encode) = readTwo path second fun isLeaf nibbles =>
      if isLeaf then
        if second.data = [] ∨ kMaxLeafValueSize < second.data.length then none
        else some (.leaf nibbles second.data)
      else some (.ext nibbles (if second.data.length = 32 then second.data else second.encode)) := by
  have hnode := decodeItems_encode path second []
  rw [append_nil, if_pos rfl, decodeShort_eq] at hnode
  rw [readByNode, decodeNode_eq, hnode, readTwo]
  split
  · rfl
  · rcases hpDecode path.data with _ | ⟨_ | _, nibbles⟩
    · rfl
    · rfl
    · rw [Option.bind_some, Option.bind_some]
      rw [if_pos rfl, if_pos rfl]
      split <;> rfl

/-- `decode_branch`, which refuses, then `decode_ext_or_leaf`, on two items. -/
theorem readByPair_two :
    readByPair (path.encode ++ second.encode) = readTwo path second fun isLeaf nibbles =>
      if isLeaf then some (.leaf nibbles second.data)
      else some (.ext nibbles (if second.data.length = 32 then second.data else second.encode)) := by
  have hsecond := decodeHeader_encode second []
  rw [append_nil, append_nil] at hsecond
  rw [readByPair, decodeBranch_two]
  rw [decodeExtOrLeaf, decodeHeader_encode, readTwo]
  simp only [Except.toOption, Option.bind_eq_bind, Option.bind_some, take_left, drop_left, hsecond]
  rcases hp : path.list with _ | _
  · rw [if_neg Bool.false_ne_true]
    rcases hpDecode path.data with _ | ⟨isLeaf, nibbles⟩
    · rw [Option.bind_none, Option.bind_none, ite_self]
      rfl
    · rcases hs : second.list with _ | _
      · have hraw : second.encode.take (second.encode.length - second.data.length + second.data.length) =
            second.encode := take_of_length_le (by omega)
        rw [hraw, drop_length, List.take_length, if_neg (by simp)]
        cases isLeaf with
        | true => rfl
        | false =>
          by_cases h32 : second.data.length = 32 <;> simp [h32]
      · simp
  · rfl

/-- Of a path that has a byte `hp_decode` refuses only one of more than 64 nibbles. -/
theorem hpDecode_eq {hp : Bytes} (h : hp ≠ []) :
    hpDecode hp = if 64 < (hpNibbles hp).length then none else some (hpIsLeaf hp, hpNibbles hp) := by
  cases hp with
  | nil => exact absurd rfl h
  | cons b rest =>
    have hrest : (rest.flatMap nibblesOf).length = 2 * rest.length := by
      simp [length_flatMap, nibblesOf, mul_comm]
    have hlen : (hpNibbles (b :: rest)).length =
        (if b.toNat / 16 % 2 = 1 then 1 else 0) + 2 * rest.length := by
      rw [hpNibbles, length_append, hrest]
      split <;> rfl
    have hiff : ((if b.toNat / 16 % 2 = 1 then 31 else 32) < rest.length) ↔
        64 < (hpNibbles (b :: rest)).length := by
      rw [hlen]
      split <;> omega
    rw [hpDecode]
    simp only [hiff]
    rfl

/-- The sweep on two items. -/
theorem readBySweep_two :
    readBySweep (path.encode ++ second.encode) = readTwo path second fun isLeaf nibbles =>
      if isLeaf then
        if second.data = [] ∨ kMaxLeafValueSize < second.data.length then none
        else some (.leaf nibbles second.data)
      else if second.data.length ≠ 32 then none
      else some (.ext nibbles second.data) := by
  have hsecond := decodeHeader_encode second []
  have hsize := rlpItemSize_encode second []
  rw [append_nil] at hsecond hsize
  have hpayload : readPayload (path.encode ++ second.encode) =
      readShortNode (path.encode ++ second.encode) := by
    rw [readPayload, rlpItemSize_encode, drop_left, hsize, if_pos (encode_length_ne_zero path),
      if_neg (encode_length_ne_zero second), if_neg (by simp)]
  have hshort : readShortNode (path.encode ++ second.encode) =
      if path.list ∨ path.data.length = 0 ∨ second.list then none
        else some (.short path.data second.data) := by
    rw [readShortNode, decodeHeader_encode]
    simp only [Except.toOption, Option.bind_eq_bind, Option.bind_some, take_left, drop_left, hsecond]
    rcases path.list with _ | _
    · by_cases h0 : path.data.length = 0
      · simp [h0]
      · rcases second.list with _ | _
        · simp [h0]
        · simp [h0]
    · simp
  rw [readBySweep, hpayload, hshort, readTwo]
  rcases path.list with _ | _
  · rcases second.list with _ | _
    · by_cases h0 : path.data = []
      · simp [h0, hpDecode]
      · rw [hpDecode_eq h0]
        simp only [Bool.false_eq_true, or_false, length_eq_zero_iff, h0, if_false]
        split
        · rfl
        · rfl
    · simp
  · simp

end TwoItems

/-! ## What is accepted as two items -/

theorem decodeNode_short {second : Bytes} {isLeaf : Bool} {path : Nibbles}
    (h : decodeNode p = some (.short isLeaf path second)) :
    ∃ it₀ it₁ : Item, p = it₀.encode ++ it₁.encode := by
  rw [decodeNode_eq] at h
  obtain ⟨it₀, it₁, rest, rfl⟩ := decodeItems_items h
  rw [decodeItems_encode] at h
  split at h
  case isTrue hrest =>
    subst hrest
    exact ⟨it₀, it₁, by rw [append_nil]⟩
  case isFalse =>
    obtain ⟨c₀, -, h⟩ := Option.bind_eq_some_iff.mp h
    obtain ⟨c₁, -, h⟩ := Option.bind_eq_some_iff.mp h
    obtain ⟨cs, -, h⟩ := Option.bind_eq_some_iff.mp h
    split at h <;> cases h

theorem decodeExtOrLeaf_short {r : Bool × Nibbles × Bytes} (h : decodeExtOrLeaf p = some r) :
    ∃ it₀ it₁ : Item, p = it₀.encode ++ it₁.encode := by
  obtain ⟨⟨h₁, src₁⟩, hd₁, h⟩ := Option.bind_eq_some_iff.mp h
  dsimp only at h
  split at h
  case isTrue => cases h
  case isFalse =>
  obtain ⟨⟨isLeaf, path⟩, -, h⟩ := Option.bind_eq_some_iff.mp h
  obtain ⟨⟨h₂, src₂⟩, hd₂, h⟩ := Option.bind_eq_some_iff.mp h
  split at h
  case isTrue => cases h
  case isFalse hrest =>
  rw [not_or, not_not] at hrest
  obtain ⟨it₀, -, -, rfl⟩ := nextItem_of_toOption hd₁
  obtain ⟨it₁, -, -, hit₁⟩ := nextItem_of_toOption hd₂
  rw [hrest.2, append_nil] at hit₁
  exact ⟨it₀, it₁, by rw [hit₁]⟩

theorem readShortNode_ne_branch {items : Bytes} : readShortNode p ≠ some (.branch items) := by
  intro h
  obtain ⟨⟨h₀, src₀⟩, -, h⟩ := Option.bind_eq_some_iff.mp h
  dsimp only at h
  split at h
  · cases h
  · obtain ⟨⟨h₁, src₁⟩, -, h⟩ := Option.bind_eq_some_iff.mp h
    split at h <;> cases h

theorem readPayload_cases (p : Bytes) :
    readPayload p = none ∨ readPayload p = some (.branch p) ∨ readPayload p = readShortNode p := by
  unfold readPayload
  dsimp only
  generalize (if rlpItemSize p ≠ 0 then rlpItemSize (p.drop (rlpItemSize p)) else 0) = s₁
  by_cases h0 : s₁ = 0
  · exact .inl (if_pos h0)
  · rw [if_neg h0]
    by_cases hsum : rlpItemSize p + s₁ = p.length
    · exact .inr (.inr (if_neg (not_not.mpr hsum)))
    · exact .inr (.inl (if_pos hsum))

/-- Two sizes that fall short of the payload make it a branch. -/
theorem readPayload_more (it₀ it₁ : Item) (hrest : rest ≠ []) :
    readPayload (it₀.encode ++ (it₁.encode ++ rest)) =
      some (.branch (it₀.encode ++ (it₁.encode ++ rest))) := by
  have hlen : 0 < rest.length := length_pos_iff.mpr hrest
  rw [readPayload, rlpItemSize_encode, drop_left, rlpItemSize_encode, if_pos (encode_length_ne_zero it₀),
    if_neg (encode_length_ne_zero it₁), if_pos]
  simp only [length_append]
  omega

theorem readPayload_short {hp second : Bytes} (h : readPayload p = some (.short hp second)) :
    ∃ it₀ it₁ : Item, p = it₀.encode ++ it₁.encode := by
  have hshort : readShortNode p = some (.short hp second) := by
    rcases readPayload_cases p with hc | hc | hc
    · rw [hc] at h
      cases h
    · rw [hc] at h
      cases h
    · rw [← hc, h]
  rcases h₀ : nextItem p with _ | ⟨it₀, src⟩
  · rw [readShortNode, nextItem_eq_none h₀] at hshort
    cases hshort
  obtain rfl := nextItem_eq_some.mp h₀
  rcases h₁ : nextItem src with _ | ⟨it₁, rest⟩
  · have hfirst : (decodeHeader (it₀.encode ++ src)).toOption =
        some (⟨it₀.list, it₀.data.length⟩, it₀.data ++ src) := by
      rw [decodeHeader_encode]
      rfl
    rw [readShortNode, hfirst] at hshort
    simp only [Option.bind_eq_bind, Option.bind_some, drop_left, nextItem_eq_none h₁] at hshort
    split at hshort <;> cases hshort
  obtain rfl := nextItem_eq_some.mp h₁
  by_cases hrest : rest = []
  · subst hrest
    exact ⟨it₀, it₁, by rw [append_nil]⟩
  · rw [readPayload_more it₀ it₁ hrest] at h
    cases h

/-! ## Branches -/

section Branches

variable (its : Fin 16 → Item)

theorem branchPayload_cons :
    ∃ rest, branchPayload its = (its 0).encode ++ ((its 1).encode ++ rest) ∧ rest ≠ [] := by
  have hslots : finRange 16 = 0 :: 1 :: (finRange 16).drop 2 := by decide
  refine ⟨((((finRange 16).drop 2).map fun i => (its i).encode).flatten ++ [kEmptyStringCode]),
    ?_, by simp⟩
  rw [branchPayload, hslots]
  simp only [map_cons, flatten_cons, append_assoc]
  rfl

/-- No list of two items is a branch. -/
theorem branchPayload_ne_two (path second : Item) :
    branchPayload its ≠ path.encode ++ second.encode := by
  obtain ⟨rest, heq, hne⟩ := branchPayload_cons its
  intro h
  rw [heq] at h
  have hitems : ([its 0, its 1].map Item.encode).flatten ++ rest =
      ([path, second].map Item.encode).flatten ++ [] := by
    simpa using h
  exact hne (items_unique (by rfl) hitems).2

theorem mapM_branch {α : Type} {read : Item → Option α} {as : List α} :
    (∃ l : List Item, l.length = 16 ∧
        branchPayload its = (l.map Item.encode).flatten ++ [kEmptyStringCode] ∧ l.mapM read = some as) ↔
      ((finRange 16).mapM fun i => read (its i)) = some as := by
  have hmap : ((finRange 16).map its).mapM read = (finRange 16).mapM fun i => read (its i) := by
    generalize finRange 16 = l
    induction l with
    | nil => rfl
    | cons i l ih => rw [map_cons, mapM_cons, mapM_cons, ih]
  constructor
  · rintro ⟨l, hlen, heq, has⟩
    rw [branchPayload_eq] at heq
    obtain ⟨rfl, -⟩ := items_unique (by simp [hlen]) heq
    exact hmap ▸ has
  · exact fun h => ⟨(finRange 16).map its, by simp, branchPayload_eq its, hmap.trans h⟩

/-- `map` after `mapM`. -/
theorem mapM_map_reading {f : Fin 16 → Option ChildRef} (l : List (Fin 16)) :
    (l.mapM f).map (List.map ChildRef.reading) = l.mapM fun i => (f i).map ChildRef.reading := by
  induction l with
  | nil => rfl
  | cons i l ih =>
    rw [mapM_cons, mapM_cons, ← ih]
    rcases f i with _ | c
    · rfl
    · rcases l.mapM f with _ | cs <;> rfl

/-- `decode_node` on seventeen items, the last of them empty. -/
theorem readByNode_branch :
    readByNode (branchPayload its) =
      ((finRange 16).mapM fun i => (readAt i (its i)).map ChildRef.reading).map Reading.branch := by
  rw [← mapM_map_reading]
  rcases hm : (finRange 16).mapM fun i => readAt i (its i) with _ | cs
  · have hnone : decodeNode (branchPayload its) = none := by
      rcases hd : decodeNode (branchPayload its) with _ | ⟨cs | ⟨isLeaf, path, second⟩⟩
      · rfl
      · obtain ⟨its', heq, hcs⟩ := decodeNode_eq_slots.mp hd
        obtain rfl := branchPayload_injective heq
        rw [hm] at hcs
        cases hcs
      · obtain ⟨it₀, it₁, heq⟩ := decodeNode_short hd
        exact absurd heq (branchPayload_ne_two its it₀ it₁)
    rw [readByNode, hnone]
    rfl
  · rw [readByNode, decodeNode_eq_slots.mpr ⟨its, rfl, hm⟩]
    rfl

/-- `decode_branch` on seventeen items, the last of them empty. -/
theorem readByPair_branch :
    readByPair (branchPayload its) =
      ((finRange 16).mapM fun i => (slotRef (its i)).map ChildRef.reading).map Reading.branch := by
  rw [← mapM_map_reading]
  rcases hm : (finRange 16).mapM fun i => slotRef (its i) with _ | cs
  · have hbranch : decodeBranch (branchPayload its) = none := by
      rcases hd : decodeBranch (branchPayload its) with _ | ⟨cs, v⟩
      · rfl
      · obtain ⟨l, value, hlen, heq, hcs, -⟩ := decodeBranch_eq_some.mp hd
        obtain ⟨-, hvalue⟩ := items_unique (by simp [hlen]) ((branchPayload_eq its).symm.trans heq)
        rw [(mapM_branch its).mp ⟨l, hlen, hvalue ▸ heq, hcs⟩] at hm
        cases hm
    have hshort : decodeExtOrLeaf (branchPayload its) = none := by
      rcases hd : decodeExtOrLeaf (branchPayload its) with _ | r
      · rfl
      · obtain ⟨it₀, it₁, heq⟩ := decodeExtOrLeaf_short hd
        exact absurd heq (branchPayload_ne_two its it₀ it₁)
    rw [readByPair, hbranch, hshort]
    rfl
  · obtain ⟨l, hlen, heq, hcs⟩ := (mapM_branch its).mpr hm
    rw [readByPair, decodeBranch_eq_some.mpr ⟨l, .empty, hlen, heq, hcs, rfl, rfl⟩]
    rfl

/-- The sweep on seventeen items, the last of them empty. -/
theorem readBySweep_branch :
    readBySweep (branchPayload its) =
      ((finRange 16).mapM fun i => slotChild (its i)).map Reading.branch := by
  have hpayload : readPayload (branchPayload its) = some (.branch (branchPayload its)) := by
    obtain ⟨rest, heq, hne⟩ := branchPayload_cons its
    rw [heq]
    exact readPayload_more _ _ hne
  rw [readBySweep, hpayload]
  dsimp only
  rcases hm : (finRange 16).mapM fun i => slotChild (its i) with _ | cs
  · rcases hb : branchChildren 16 (branchPayload its) with ⟨cs, _ | last⟩
    · rfl
    · obtain ⟨l, hlen, heq, hcs⟩ := branchChildren_eq_some.mp hb
      obtain ⟨-, rfl⟩ := items_unique (by simp [hlen]) ((branchPayload_eq its).symm.trans heq)
      rw [(mapM_branch its).mp ⟨l, hlen, heq, hcs⟩] at hm
      cases hm
  · have hb : branchChildren 16 (branchPayload its) = (cs, some [kEmptyStringCode]) :=
      branchChildren_eq_some.mpr ((mapM_branch its).mpr hm)
    rw [hb]
    rfl

end Branches

/-! ## Agreement -/

/-- A leaf or extension on which the readers disagree: the value of a leaf is empty or too long, the
child of an extension no string of 32 bytes. -/
def ContestedShort (payload : Bytes) : Prop :=
  ∃ path second : Item, payload = path.encode ++ second.encode ∧ path.list = false ∧
    second.list = false ∧
    ∃ isLeaf nibbles, hpDecode path.data = some (isLeaf, nibbles) ∧
      if isLeaf then second.data = [] ∨
        kMaxLeafValueSize < second.data.length else second.data.length ≠ 32

/-- A branch `decode_node` takes, with a slot on which the readers disagree. -/
def ContestedBranch (payload : Bytes) : Prop :=
  ∃ its : Fin 16 → Item, payload = branchPayload its ∧ (∀ i, Readable i (its i)) ∧
    ∃ i, Contested i (its i)

/-- The payload of a branch with these items and this value. -/
def valuedPayload (its : Fin 16 → Item) (value : Item) : Bytes :=
  (((finRange 16).map its).map Item.encode).flatten ++ value.encode

/-- A branch with a value, which `decode_branch` takes and nobody else. -/
def ContestedValue (payload : Bytes) : Prop :=
  ∃ (its : Fin 16 → Item) (value : Item), payload = valuedPayload its value ∧ (∀ i, InSlot (its i)) ∧
    value.list = false ∧ value.data ≠ []

theorem two_unique {it₀ it₁ path second : Item}
    (h : it₀.encode ++ it₁.encode = path.encode ++ second.encode) :
    it₀ = path ∧ it₁ = second := by
  have hitems : ([it₀, it₁].map Item.encode).flatten ++ [] =
      ([path, second].map Item.encode).flatten ++ [] := by
    simpa using h
  obtain ⟨heq, -⟩ := items_unique (by rfl) hitems
  simpa using heq

/-- Two items: the readers agree on the lists and on the paths, and differ on the second item. -/
theorem agree_two (path second : Item) :
    (readByNode (path.encode ++ second.encode) = readBySweep (path.encode ++ second.encode) ∧
        readByPair (path.encode ++ second.encode) = readBySweep (path.encode ++ second.encode)) ↔
      ¬ ContestedShort (path.encode ++ second.encode) := by
  have hcontested : ContestedShort (path.encode ++ second.encode) ↔
      path.list = false ∧ second.list = false ∧
        ∃ isLeaf nibbles, hpDecode path.data = some (isLeaf, nibbles) ∧
        if isLeaf then second.data = [] ∨ kMaxLeafValueSize < second.data.length
        else second.data.length ≠ 32 := by
    constructor
    · rintro ⟨it₀, it₁, heq, h⟩
      obtain ⟨rfl, rfl⟩ := two_unique heq
      exact h
    · exact fun h => ⟨path, second, rfl, h⟩
  rw [hcontested, readByNode_two, readByPair_two, readBySweep_two]
  unfold readTwo
  by_cases hlists : path.list = true ∨ second.list = true
  · simp only [if_pos hlists, and_self, true_iff]
    rintro ⟨hp, hs, -⟩
    rw [hp, hs] at hlists
    simp at hlists
  · simp only [if_neg hlists]
    rw [not_or, Bool.not_eq_true, Bool.not_eq_true] at hlists
    rcases hpDecode path.data with _ | ⟨_ | _, nibbles⟩
    · simp
    · by_cases h32 : second.data.length = 32 <;> simp [h32, hlists]
    · by_cases hbad : second.data = [] ∨ kMaxLeafValueSize < second.data.length <;> simp [hbad, hlists]

/-- Sixteen items and the empty string: one contested slot decides, unless another slot makes the
payload no branch for anyone. -/
theorem agree_branch (its : Fin 16 → Item) :
    (readByNode (branchPayload its) = readBySweep (branchPayload its) ∧
        readByPair (branchPayload its) = readBySweep (branchPayload its)) ↔
      ¬ ContestedBranch (branchPayload its) := by
  have hcontested : ContestedBranch (branchPayload its) ↔
      (∀ i, Readable i (its i)) ∧ ∃ i, Contested i (its i) := by
    constructor
    · rintro ⟨its', heq, h⟩
      obtain rfl := branchPayload_injective heq
      exact h
    · exact fun h => ⟨its, rfl, h⟩
  have hinj : ∀ {a b : Option (List BranchChild)}, a.map Reading.branch = b.map Reading.branch ↔ a = b :=
    fun {a b} => (Option.map_injective fun _ _ h => Reading.branch.inj h).eq_iff
  rw [hcontested, readByNode_branch, readByPair_branch, readBySweep_branch, hinj, hinj]
  by_cases hread : ∀ i, Readable i (its i)
  · simp only [hread, implies_true, true_and, not_exists]
    constructor
    · rintro ⟨hnode, -⟩ i
      have hsome : ∀ j ∈ finRange 16, ((readAt j (its j)).map ChildRef.reading).isSome := fun j _ => by
        rw [Option.isSome_map]
        exact readAt_isSome.mpr (hread j)
      obtain ⟨r, hr⟩ := mapM_isSome hsome
      exact (readAt_eq_slotChild (hread i)).mp (mapM_inj hr (hnode ▸ hr) i (mem_finRange i))
    · intro hall
      refine ⟨mapM_congr fun i _ => (readAt_eq_slotChild (hread i)).mpr (hall i),
        mapM_congr fun i _ => ?_⟩
      exact slotChild_eq_reading.mpr fun h => hall i (.inl h)
  · -- a slot nobody takes
    obtain ⟨i, hi⟩ := not_forall.mp hread
    have hslot : slotRef (its i) = none :=
      Option.not_isSome_iff_eq_none.mp (slotRef_isSome.not.mpr fun h => hi h.readable)
    have hlead : readAt i (its i) = none := Option.not_isSome_iff_eq_none.mp (readAt_isSome.not.mpr hi)
    have hmem := mem_finRange i
    rw [mapM_eq_none hmem (by rw [hlead]; rfl), mapM_eq_none hmem (by rw [slotChild, hslot]; rfl),
      mapM_eq_none hmem (by rw [hslot]; rfl)]
    simp only [true_and, true_iff]
    exact fun h => hread h.1

theorem branchPayload_of_items {l : List Item} (hlen : l.length = 16)
    (h : payload = (l.map Item.encode).flatten ++ [kEmptyStringCode]) :
    ∃ its : Fin 16 → Item, payload = branchPayload its := by
  obtain ⟨its, rfl⟩ := exists_slots hlen
  exact ⟨its, h.trans (branchPayload_eq its).symm⟩

/-- A payload `decode_node` takes has one of two shapes. -/
theorem readByNode_shape {r : Reading} (h : readByNode payload = some r) :
    (∃ its : Fin 16 → Item, payload = branchPayload its) ∨
      ∃ path second : Item, payload = path.encode ++ second.encode := by
  obtain ⟨d, hd, -⟩ := Option.map_eq_some_iff.mp h
  cases d with
  | branch cs =>
    obtain ⟨its, heq, -⟩ := decodeNode_eq_slots.mp hd
    exact .inl ⟨its, heq⟩
  | short isLeaf path second => exact .inr (decodeNode_short hd)

/-- A payload the sweep takes has one of the same shapes, and is no branch with a value. -/
theorem readBySweep_shape {r : Reading} (h : readBySweep payload = some r) :
    ((∃ its : Fin 16 → Item, payload = branchPayload its) ∨
      ∃ path second : Item, payload = path.encode ++ second.encode) ∧ ∀ cs v, r ≠ .valued cs v := by
  unfold readBySweep at h
  split at h
  · cases h
  · rename_i hp second hread
    refine ⟨.inr (readPayload_short hread), ?_⟩
    split_ifs at h
    · cases h
      simp
    · cases h
      simp
  · rename_i items hread
    split at h
    · rename_i children last hb
      split at h
      · rename_i hlast
        subst hlast
        cases h
        obtain ⟨l, hlen, heq, -⟩ := branchChildren_eq_some.mp hb
        obtain rfl : items = payload := by
          rcases readPayload_cases payload with hc | hc | hc
          · rw [hc] at hread
            cases hread
          · rw [hc] at hread
            cases hread
            rfl
          · exact absurd (hc ▸ hread) readShortNode_ne_branch
        exact ⟨.inl (branchPayload_of_items hlen heq), by simp⟩
      · cases h
    · cases h

/-- A payload the pair takes has one of these shapes too, or is a branch with a value. -/
theorem readByPair_shape {r : Reading} (h : readByPair payload = some r) :
    ((∃ its : Fin 16 → Item, payload = branchPayload its) ∨
      ∃ path second : Item, payload = path.encode ++ second.encode) ∨ ContestedValue payload := by
  unfold readByPair at h
  split at h
  · rename_i cs v hd
    obtain ⟨l, value, hlen, heq, hcs, hl, rfl⟩ := decodeBranch_eq_some.mp hd
    obtain ⟨its, rfl⟩ := exists_slots hlen
    by_cases hv : value.data = []
    · have hempty : value.encode = [kEmptyStringCode] := by
        rw [Item.encode, hl, hv]
        rfl
      exact .inl (.inl (branchPayload_of_items hlen (hempty ▸ heq)))
    · refine .inr ⟨its, value, heq, fun i => ?_, hl, hv⟩
      by_contra hnot
      have hnone := Option.not_isSome_iff_eq_none.mp (slotRef_isSome.not.mpr hnot)
      rw [mapM_eq_none (mem_map_of_mem (mem_finRange i)) hnone] at hcs
      cases hcs
  · obtain ⟨d, hd, -⟩ := Option.map_eq_some_iff.mp h
    exact .inl (.inr (decodeExtOrLeaf_short hd))

/-- A branch with a value: the pair reads it, nobody else does. -/
theorem readByPair_valued (h : ContestedValue payload) :
    ∃ cs v, readByPair payload = some (.valued cs v) := by
  obtain ⟨its, value, rfl, hslots, hl, hv⟩ := h
  have hsome : ∀ it ∈ (finRange 16).map its, (slotRef it).isSome := by
    intro it hit
    obtain ⟨i, -, rfl⟩ := mem_map.mp hit
    exact slotRef_isSome.mpr (hslots i)
  obtain ⟨cs, hcs⟩ := mapM_isSome hsome
  have hd : decodeBranch (valuedPayload its value) = some (cs, value.data) :=
    decodeBranch_eq_some.mpr ⟨_, value, by simp, rfl, hcs, hl, rfl⟩
  exact ⟨_, _, by rw [readByPair, hd]; dsimp only; rw [if_neg hv]⟩

/-- **When the three readers agree.**  For every byte string taken as a node's payload,
`decode_node`, `decode_branch` with `decode_ext_or_leaf`, and the sweep of `HashState` classify it
alike and find the same children, path and value, exactly if it is neither a contested leaf or
extension, nor a contested branch, nor a branch with a value. -/
theorem readers_agree_iff (payload : Bytes) :
    (readByNode payload = readBySweep payload ∧ readByPair payload = readBySweep payload) ↔
      ¬ (ContestedShort payload ∨ ContestedBranch payload ∨ ContestedValue payload) := by
  by_cases hvalue : ContestedValue payload
  · obtain ⟨cs, v, hpair⟩ := readByPair_valued hvalue
    refine iff_of_false (fun h => ?_) (not_not.mpr (.inr (.inr hvalue)))
    exact (readBySweep_shape (h.2.symm.trans hpair)).2 cs v rfl
  by_cases hbranch : ∃ its : Fin 16 → Item, payload = branchPayload its
  · obtain ⟨its, rfl⟩ := hbranch
    have hshort : ¬ ContestedShort (branchPayload its) := by
      rintro ⟨path, second, heq, -⟩
      exact branchPayload_ne_two its path second heq
    rw [agree_branch, not_or, not_or]
    exact ⟨fun h => ⟨hshort, h, hvalue⟩, fun h => h.2.1⟩
  by_cases htwo : ∃ path second : Item, payload = path.encode ++ second.encode
  · obtain ⟨path, second, rfl⟩ := htwo
    have hnb : ¬ ContestedBranch (path.encode ++ second.encode) := by
      rintro ⟨its, heq, -⟩
      exact hbranch ⟨its, heq⟩
    rw [agree_two, not_or, not_or]
    exact ⟨fun h => ⟨h, hnb, hvalue⟩, fun h => h.1⟩
  · -- a payload of no shape is refused by all
    have hshape : ¬ ((∃ its : Fin 16 → Item, payload = branchPayload its) ∨
        ∃ path second : Item, payload = path.encode ++ second.encode) := not_or.mpr ⟨hbranch, htwo⟩
    rw [Option.eq_none_iff_forall_ne_some.mpr fun r h => hshape (readByNode_shape h),
      Option.eq_none_iff_forall_ne_some.mpr fun r h => (readByPair_shape h).elim hshape hvalue,
      Option.eq_none_iff_forall_ne_some.mpr fun r h => hshape (readBySweep_shape h).1]
    refine iff_of_true ⟨rfl, rfl⟩ ?_
    rintro (⟨path, second, heq, -⟩ | ⟨its, heq, -⟩ | h)
    · exact htwo ⟨path, second, heq⟩
    · exact hbranch ⟨its, heq⟩
    · exact hvalue h

/-- A branch whose first slot is a single byte, an extension with a child of three bytes, a leaf
without a value, a branch with one: each is read by some and refused by others. -/
theorem readers_disagree :
    (readByNode (0x05 :: replicate 16 kEmptyStringCode) =
        some (.branch (.embedded [0x05, 0x05] :: replicate 15 .empty)) ∧
      readByPair (0x05 :: replicate 16 kEmptyStringCode) = none ∧
      readBySweep (0x05 :: replicate 16 kEmptyStringCode) = none) ∧
    (readByNode [0x16, 0x83, 1, 2, 3] = some (.ext [6] [0x83, 1, 2, 3]) ∧
      readByPair [0x16, 0x83, 1, 2, 3] = some (.ext [6] [0x83, 1, 2, 3]) ∧
      readBySweep [0x16, 0x83, 1, 2, 3] = none) ∧
    (readByNode [0x36, 0x80] = none ∧ readByPair [0x36, 0x80] = some (.leaf [6] []) ∧
      readBySweep [0x36, 0x80] = none) ∧
    (readByNode (replicate 16 kEmptyStringCode ++ [0x05]) = none ∧
      readByPair (replicate 16 kEmptyStringCode ++ [0x05]) =
        some (.valued (replicate 16 .empty) [0x05]) ∧
      readBySweep (replicate 16 kEmptyStringCode ++ [0x05]) = none) := by
  decide +kernel

end Zilkworm.Trie
