/-
# The items of a node

`decode_node` by the items of the payload.  A list of two items is a leaf or an extension; a longer
one is a branch, of sixteen items and the empty string.  The first two items are read by their
headers, before it is known that the list is a branch, and `fill_branch_child` takes more there than
`fill_branch_child_rlp` takes in the other slots: any string of less than 32 bytes, and the empty
list for an empty slot.
-/
import Mathlib.Data.List.Forall2
import Zilkworm.Rlp.Items
import Zilkworm.Trie.Node

namespace Zilkworm.Trie

open List Lib Rlp Zilkworm.Types

variable {n : ℕ} {it : Item} {p src : Bytes} {cs : List ChildRef} {its : List Item}

/-- What `fill_branch_child_rlp` makes of an item. -/
def slotRef (it : Item) : Option ChildRef :=
  if it.list then if it.data.length ≤ 31 then some (.ref it.encode) else none
  else if it.data = [] then some .empty
  else if it.data.length = 32 then some (.ref it.data) else none

/-- What `fill_branch_child` makes of an item. -/
def leadRef (it : Item) : Option ChildRef := fillBranchChild (it.encode.headD 0) it.data

/-- The references of a branch's items. -/
def slotRefs : List Item → Option (List ChildRef)
  | it₀ :: it₁ :: its => do
    let c₀ ← leadRef it₀
    let c₁ ← leadRef it₁
    let cs ← its.mapM slotRef
    return c₀ :: c₁ :: cs
  | _ => none

/-! ## Short items -/

theorem encodeHeader_short {list : Bool} (h : n < 56) :
    encodeHeader ⟨list, n⟩ = [UInt8.ofNat ((if list then 0xC0 else 0x80) + n)] := by
  exact if_pos h

theorem encode_list_short (hl : it.list = true) (hn : it.data.length < 56) :
    it.encode = UInt8.ofNat (0xC0 + it.data.length) :: it.data := by
  rw [Item.encode, if_pos hl, encodeList, encodeHeader_short hn]
  rfl

/-- A short string has a header, unless it is a byte below `0x80`. -/
theorem encode_string_short (hl : it.list = false) (hn : it.data.length < 56) :
    (∃ b, b < kEmptyStringCode ∧ it.data = [b] ∧ it.encode = [b]) ∨
      it.encode = UInt8.ofNat (0x80 + it.data.length) :: it.data := by
  rcases it.encode_cases with ⟨b, hb, -, hdata, henc⟩ | henc
  · exact .inl ⟨b, hb, hdata, henc⟩
  · rw [hl, encodeHeader_short hn] at henc
    exact .inr henc

theorem encode_hash (hl : it.list = false) (hn : it.data.length = 32) :
    it.encode = 0xa0 :: it.data := by
  rcases encode_string_short hl (by omega) with ⟨b, -, hdata, -⟩ | henc
  · rw [hdata] at hn
    cases hn
  · rw [henc, hn]
    rfl

/-- Only a string of 32 bytes starts with `0xa0`. -/
theorem hash_of_head (h : it.encode.headD 0 = 0xa0) : it.list = false ∧ it.data.length = 32 := by
  have hdec := decodeHeader_encode it []
  rcases henc : it.encode with _ | ⟨b, bs⟩
  · exact absurd henc it.encode_ne_nil
  · rw [henc] at h hdec
    obtain rfl : b = 0xa0 := h
    rw [append_nil, append_nil] at hdec
    simp only [decodeHeader, bind_eq_ok, rejectIf_eq_ok, pure_eq_ok, Prod.mk.injEq] at hdec
    obtain ⟨⟨h', rest'⟩, hb, -, -, hh, -⟩ := hdec
    change (checkSingleByte 32 bs >>= fun _ => pure (⟨false, 32⟩, bs)) = Except.ok (h', rest') at hb
    cases hb
    simp only [Header.mk.injEq] at hh
    exact ⟨hh.1.symm, hh.2.symm⟩

theorem toNat_list_code (h : n ≤ 31) : (UInt8.ofNat (0xC0 + n)).toNat = 0xC0 + n := by
  rw [UInt8.toNat_ofNat']
  omega

theorem ofNat_list_code {b : UInt8} (h : 0xc0 ≤ b) : UInt8.ofNat (0xC0 + (b.toNat - 0xc0)) = b :=
  ofNat_add_sub (by simpa [UInt8.le_iff_toNat_le] using h)

/-! ## The slots from the third on -/

theorem fillBranchChildRlp_encode {c : ChildRef} (h : slotRef it = some c) (rest : Bytes) :
    fillBranchChildRlp (it.encode ++ rest) = some (c, rest) := by
  unfold slotRef at h
  split at h
  case isTrue hl =>
    split at h
    case isFalse => cases h
    case isTrue hn =>
      cases h
      have hb := toNat_list_code hn
      rw [encode_list_short hl (by omega), cons_append, fillBranchChildRlp]
      generalize UInt8.ofNat (0xC0 + it.data.length) = b at hb
      have hne : b ≠ 0xa0 ∧ b ≠ kEmptyStringCode := by
        constructor <;> rintro rfl <;> simp [kEmptyStringCode] at hb <;> omega
      have hrange : 0xc0 ≤ b ∧ b ≤ 0xf7 := by
        rw [UInt8.le_iff_toNat_le, UInt8.le_iff_toNat_le, hb]
        exact ⟨Nat.le_add_right _ _, by show _ ≤ 0xf7; omega⟩
      rw [if_neg hne.1, if_neg hne.2, if_pos hrange]
      have hlen : b.toNat - 0xc0 = it.data.length := by omega
      rw [hlen, if_neg (by rw [length_append]; omega), take_left', drop_left'] <;> rfl
  case isFalse hl =>
    have hl : it.list = false := by simpa using hl
    split at h
    case isTrue hnil =>
      cases h
      rw [show it.encode = [kEmptyStringCode] by simp [Item.encode, hl, hnil, encodeBytes, encodeHeader,
        kEmptyStringCode]]
      rfl
    case isFalse =>
      split at h
      case isFalse => cases h
      case isTrue hn =>
        cases h
        rw [encode_hash hl hn, cons_append, fillBranchChildRlp, if_pos rfl,
          if_neg (by rw [length_append]; omega), take_left' hn, drop_left' hn]

theorem fillBranchChildRlp_eq_some {rest : Bytes} {c : ChildRef} :
    fillBranchChildRlp src = some (c, rest) ↔
      ∃ it, src = it.encode ++ rest ∧ slotRef it = some c := by
  constructor
  · intro h
    cases src with
    | nil => cases h
    | cons b bs =>
      rw [fillBranchChildRlp] at h
      split at h
      case isTrue hb =>
        -- a hash
        subst hb
        split at h
        case isTrue => cases h
        case isFalse hlen =>
          cases h
          have hn : (bs.take 32).length = 32 := length_take_of_le (by omega)
          refine ⟨⟨false, bs.take 32, by omega⟩, ?_, ?_⟩
          · rw [encode_hash rfl hn, cons_append, take_append_drop]
          · rw [slotRef, if_neg Bool.false_ne_true, if_neg, if_pos hn]
            intro hnil
            dsimp only at hnil
            rw [hnil] at hn
            cases hn
      case isFalse =>
      split at h
      case isTrue hb =>
        subst hb
        cases h
        exact ⟨.empty, rfl, rfl⟩
      case isFalse =>
      split at h
      case isFalse => cases h
      case isTrue hb =>
        -- an embedded node
        dsimp only at h
        split at h
        case isTrue => cases h
        case isFalse hlen =>
          cases h
          have hn : (bs.take (b.toNat - 0xc0)).length = b.toNat - 0xc0 := length_take_of_le (by omega)
          refine ⟨⟨true, bs.take (b.toNat - 0xc0), by omega⟩, ?_, ?_⟩
          · rw [encode_list_short rfl (by dsimp only; omega)]
            dsimp only
            rw [hn, ofNat_list_code hb.1, cons_append, take_append_drop]
          · rw [slotRef, if_pos rfl, if_pos (by dsimp only; omega),
              encode_list_short rfl (by dsimp only; omega)]
            dsimp only
            rw [hn, ofNat_list_code hb.1]
  · rintro ⟨it, rfl, hc⟩
    exact fillBranchChildRlp_encode hc rest

theorem fillBranchChildren_eq_scan (n : ℕ) (src : Bytes) :
    fillBranchChildren n src = scan fillBranchChildRlp n src := by
  induction n generalizing src with
  | zero => rfl
  | succ n ih =>
    rw [fillBranchChildren, scan]
    simp only [ih]

theorem fillBranchChildren_eq_some {rest : Bytes} :
    fillBranchChildren n src = some (cs, rest) ↔
      ∃ its : List Item, its.length = n ∧ src = (its.map Item.encode).flatten ++ rest ∧
        its.mapM slotRef = some cs := by
  rw [fillBranchChildren_eq_scan]
  exact scan_eq_some fillBranchChildRlp_eq_some

/-! ## `decode_node` -/

theorem headD_encode_append (it : Item) (rest : Bytes) :
    (it.encode ++ rest).headD 0 = it.encode.headD 0 := by
  rcases henc : it.encode with _ | ⟨b, bs⟩
  · exact absurd henc it.encode_ne_nil
  · rfl

theorem nextItem_eq_none (h : nextItem src = none) : (decodeHeader src).toOption = none := by
  rcases hd : decodeHeader src with e | ⟨hdr, body⟩
  · rfl
  · obtain ⟨it, -, -, -, hit⟩ := nextItem_of_header hd
    rw [h] at hit
    cases hit

/-- Two items and what follows them. -/
theorem decodeItems_encode (it₀ it₁ : Item) (rest : Bytes) :
    decodeItems (it₀.encode ++ (it₁.encode ++ rest)) =
      if rest = [] then
        decodeShort ⟨it₀.list, it₀.data.length⟩ ⟨it₁.list, it₁.data.length⟩ it₀.data it₁.data it₁.encode
      else
        (leadRef it₀).bind fun c₀ => (leadRef it₁).bind fun c₁ =>
          (fillBranchChildren 14 rest).bind fun cs =>
          if cs.2 = [kEmptyStringCode] then some (.branch (c₀ :: c₁ :: cs.1)) else none := by
  unfold decodeItems
  rw [decodeHeader_encode, headD_encode_append]
  simp only [Except.toOption, Option.bind_eq_bind, Option.bind_some, take_left, drop_left]
  rw [decodeHeader_encode, headD_encode_append]
  simp only [Option.bind_some, take_left, drop_left]
  by_cases hrest : rest = []
  · subst hrest
    simp only [if_true, append_nil]
  · simp only [if_neg hrest]
    rfl

/-- A list of two items: two strings, the first a path. -/
theorem decodeShort_eq (h₀ h₁ : Header) (item₀ item₁ raw : Bytes) :
    decodeShort h₀ h₁ item₀ item₁ raw =
      if h₀.list ∨ h₁.list then none
      else (hpDecode item₀).bind fun hp =>
        if hp.1 then
          if item₁ = [] ∨ kMaxLeafValueSize < item₁.length then none else some (.short true hp.2 item₁)
        else some (.short false hp.2 (if item₁.length = 32 then item₁ else raw)) := by
  unfold decodeShort
  rcases h₀ with ⟨_ | _, n₀⟩
  · rcases hpDecode item₀ with _ | ⟨isLeaf, path⟩
    · rw [Option.bind_none, ite_self]
      rfl
    · rcases h₁ with ⟨_ | _, n₁⟩ <;> rfl
  · rfl

theorem decodeShort_ne_branch {h₀ h₁ : Header} {item₀ item₁ raw : Bytes} :
    decodeShort h₀ h₁ item₀ item₁ raw ≠ some (.branch cs) := by
  intro h
  rw [decodeShort_eq] at h
  split at h
  · cases h
  · obtain ⟨hp, -, h⟩ := Option.bind_eq_some_iff.mp h
    split_ifs at h
    all_goals cases h

/-- What decodes starts with two items. -/
theorem decodeItems_items {n : Decoded} (h : decodeItems p = some n) :
    ∃ (it₀ it₁ : Item) (rest : Bytes), p = it₀.encode ++ (it₁.encode ++ rest) := by
  rcases h₀ : nextItem p with _ | ⟨it₀, src⟩
  · rw [decodeItems, nextItem_eq_none h₀] at h
    cases h
  obtain rfl := nextItem_eq_some.mp h₀
  rcases h₁ : nextItem src with _ | ⟨it₁, rest⟩
  · rw [decodeItems, decodeHeader_encode] at h
    change (decodeHeader ((it₀.data ++ src).drop it₀.data.length)).toOption.bind _ = _ at h
    rw [drop_left, nextItem_eq_none h₁] at h
    cases h
  obtain rfl := nextItem_eq_some.mp h₁
  exact ⟨it₀, it₁, rest, rfl⟩

/-- **A branch is sixteen items and the empty string.** -/
theorem decodeItems_eq_branch :
    decodeItems p = some (.branch cs) ↔
      ∃ its : List Item, its.length = 16 ∧ p = (its.map Item.encode).flatten ++ [kEmptyStringCode] ∧
        slotRefs its = some cs := by
  constructor
  · intro h
    obtain ⟨it₀, it₁, rest, rfl⟩ := decodeItems_items h
    rw [decodeItems_encode] at h
    split at h
    case isTrue => exact absurd h decodeShort_ne_branch
    case isFalse =>
    obtain ⟨c₀, hc₀, h⟩ := Option.bind_eq_some_iff.mp h
    obtain ⟨c₁, hc₁, h⟩ := Option.bind_eq_some_iff.mp h
    obtain ⟨⟨cs', last⟩, hcs, h⟩ := Option.bind_eq_some_iff.mp h
    split at h
    case isFalse => cases h
    case isTrue hlast =>
    cases h
    subst hlast
    obtain ⟨its, hlen, rfl, hits⟩ := fillBranchChildren_eq_some.mp hcs
    refine ⟨it₀ :: it₁ :: its, by simp only [length_cons, hlen], ?_, ?_⟩
    · simp only [map_cons, flatten_cons, append_assoc]
    · rw [slotRefs, hc₀, hc₁, hits]
      rfl
  · rintro ⟨its, hlen, rfl, hcs⟩
    match its, hlen with
    | it₀ :: it₁ :: its, hlen =>
    obtain ⟨c₀, hc₀, hcs⟩ := Option.bind_eq_some_iff.mp hcs
    obtain ⟨c₁, hc₁, hcs⟩ := Option.bind_eq_some_iff.mp hcs
    obtain ⟨cs', hcs', h⟩ := Option.bind_eq_some_iff.mp hcs
    cases h
    have htail : fillBranchChildren 14 ((its.map Item.encode).flatten ++ [kEmptyStringCode]) =
        some (cs', [kEmptyStringCode]) :=
      fillBranchChildren_eq_some.mpr ⟨its, by simpa using hlen, rfl, hcs'⟩
    simp only [map_cons, flatten_cons, append_assoc]
    rw [decodeItems_encode, if_neg (by simp), hc₀, hc₁, htail]
    rfl

/-! ## The full branch -/

theorem slotRef_hash (hl : it.list = false) (hn : it.data.length = 32) :
    slotRef it = some (.ref it.data) ∧ leadRef it = some (.ref it.data) := by
  have hne : it.data ≠ [] := fun h => by
    rw [h] at hn
    cases hn
  constructor
  · rw [slotRef, if_neg (by simp [hl]), if_neg hne, if_pos hn]
  · rw [leadRef, encode_hash hl hn, fillBranchChild, if_neg hne, if_neg (by simp)]

theorem mapM_slotRef_hashes (h : ∀ it ∈ its, it.list = false ∧ it.data.length = 32) :
    its.mapM slotRef = some (its.map fun it => .ref it.data) := by
  induction its with
  | nil => rfl
  | cons it its ih =>
    rw [forall_mem_cons] at h
    rw [mapM_cons, (slotRef_hash h.1.1 h.1.2).1, ih h.2]
    rfl

theorem slotRefs_hashes (hlen : 2 ≤ its.length)
    (h : ∀ it ∈ its, it.list = false ∧ it.data.length = 32) :
    slotRefs its = some (its.map fun it => .ref it.data) := by
  match its, hlen with
  | it₀ :: it₁ :: its, _ =>
    rw [forall_mem_cons, forall_mem_cons] at h
    rw [slotRefs, (slotRef_hash h.1.1 h.1.2).2, (slotRef_hash h.2.1.1 h.2.1.2).2,
      mapM_slotRef_hashes h.2.2]
    rfl

/-- Slices side by side make up the front of a byte string. -/
theorem flatten_slices (b : Bytes) (k n : ℕ) :
    ((range n).map fun i => slice b (k * i) k).flatten = b.take (k * n) := by
  induction n with
  | zero => rfl
  | succ n ih => rw [range_succ, map_append, flatten_append, ih, Nat.mul_succ, take_add,
    map_singleton, flatten_singleton, slice]

/-- **The shortcut finds what the general decoding finds.** -/
theorem decodeNode_eq (p : Bytes) : decodeNode p = decodeItems p := by
  unfold decodeNode
  split_ifs with h
  · simp only [isFullBranch, Bool.decide_and, Bool.and_eq_true, decide_eq_true_eq] at h
    obtain ⟨hlen, hlast, hhead⟩ := h
    have hbyte : ∀ {k : ℕ} (hk : k < p.length), byteAt p k = p[k] := fun hk => by
      rw [byteAt, getD_eq_getElem?_getD, getElem?_eq_getElem hk, Option.getD_some]
    have hsize : ∀ i < 16, (slice p (33 * i + 1) 32).length = 32 :=
      fun i hi => slice_length_of_le (by omega)
    set item : ℕ → Item := fun i => ⟨false, slice p (33 * i + 1) 32, by rw [slice_length]; omega⟩
    have hitem : ∀ i < 16, (item i).encode = slice p (33 * i) 33 := fun i hi => by
      rw [encode_hash rfl (hsize i hi), ← hhead ⟨i, hi⟩, hbyte (by dsimp only; omega)]
      show _ :: slice p (33 * i + 1) 32 = slice p (33 * i) 33
      unfold slice
      rw [drop_eq_getElem_cons (by omega : 33 * i < p.length), take_succ_cons]
    have hall : ∀ it ∈ (range 16).map item, it.list = false ∧ it.data.length = 32 := by
      intro it hit
      obtain ⟨i, hi, rfl⟩ := mem_map.mp hit
      exact ⟨rfl, hsize i (mem_range.mp hi)⟩
    refine (decodeItems_eq_branch.mpr ⟨(range 16).map item, by simp, ?_, ?_⟩).symm
    · have hencs : ((range 16).map item).map Item.encode = (range 16).map fun i =>
          slice p (33 * i) 33 := by
        exact map_congr_left fun i hi => hitem i (mem_range.mp hi)
      rw [hencs, flatten_slices, ← hlast, hbyte (by omega)]
      conv_lhs => rw [← take_append_drop (33 * 16) p, drop_eq_getElem_cons (by omega),
        drop_eq_nil_of_le (by omega)]
    · rw [slotRefs_hashes (by simp) hall, map_map]
      rfl
  · rfl

/-! ## Slot by slot -/

/-- The empty list. -/
def emptyListItem : Item := ⟨true, [], Item.nil_fits⟩

/-- What `decode_node` makes of the item in a slot. -/
def readAt (i : Fin 16) (it : Item) : Option ChildRef := if i.val < 2 then leadRef it else slotRef it

/-- The payload of a branch with these items. -/
def branchPayload (its : Fin 16 → Item) : Bytes :=
  ((finRange 16).map fun i => (its i).encode).flatten ++ [kEmptyStringCode]

theorem branchPayload_eq (its : Fin 16 → Item) :
    branchPayload its = (((finRange 16).map its).map Item.encode).flatten ++ [kEmptyStringCode] := by
  rfl

theorem branchPayload_injective {its its' : Fin 16 → Item} (h : branchPayload its = branchPayload its') :
    its = its' := by
  funext i
  exact map_inj_left.mp (items_unique (by simp) h).1 i (mem_finRange i)

/-- Sixteen items as a slot's item for each slot. -/
theorem exists_slots (h : its.length = 16) : ∃ f : Fin 16 → Item, its = (finRange 16).map f := by
  refine ⟨fun i => its.get (i.cast h.symm), ext_getElem (by simp [h]) fun k hk hk' => ?_⟩
  simp

theorem slotRefs_eq (its : Fin 16 → Item) :
    slotRefs ((finRange 16).map its) = (finRange 16).mapM fun i => readAt i (its i) := by
  have hslots : finRange 16 = 0 :: 1 :: (finRange 16).drop 2 := by decide
  have htail : (((finRange 16).drop 2).map its).mapM slotRef =
      ((finRange 16).drop 2).mapM fun i => readAt i (its i) := by
    have hge : ∀ i ∈ (finRange 16).drop 2, ¬ i.val < 2 := by decide
    generalize (finRange 16).drop 2 = l at hge
    induction l with
    | nil => rfl
    | cons i l ih =>
      rw [map_cons, mapM_cons, mapM_cons, ih fun j hj => hge j (mem_cons_of_mem i hj),
        readAt, if_neg (hge i mem_cons_self)]
  rw [hslots, map_cons, map_cons, slotRefs, htail, mapM_cons, mapM_cons]
  simp only [readAt, show ((0 : Fin 16).val < 2) = True by decide, show ((1 : Fin 16).val < 2) =
    True by decide,
    if_true, Option.bind_eq_bind, Option.bind_assoc]
  rfl

/-- **A branch, slot by slot.** -/
theorem decodeNode_eq_slots :
    decodeNode p = some (.branch cs) ↔
      ∃ its : Fin 16 → Item, p = branchPayload its ∧
        ((finRange 16).mapM fun i => readAt i (its i)) = some cs := by
  rw [decodeNode_eq, decodeItems_eq_branch]
  constructor
  · rintro ⟨l, hlen, rfl, hcs⟩
    obtain ⟨its, rfl⟩ := exists_slots hlen
    exact ⟨its, (branchPayload_eq its).symm, (slotRefs_eq its).symm.trans hcs⟩
  · rintro ⟨its, rfl, hcs⟩
    exact ⟨(finRange 16).map its, by simp, branchPayload_eq its, (slotRefs_eq its).trans hcs⟩

theorem decodeNode_slots {list : Bytes} (h : decodeNode list = some (.branch cs)) :
    ∃ its : Fin 16 → Item, list = branchPayload its ∧
      ∀ i, readAt i (its i) = some (cs.getD i.val .empty) := by
  obtain ⟨its, rfl, hcs⟩ := decodeNode_eq_slots.mp h
  refine ⟨its, rfl, fun i => ?_⟩
  obtain ⟨hlen, hall⟩ := List.forall₂_iff_get.mp (mapM_eq_some.mp hcs)
  have hk : i.val < cs.length := by
    rw [← hlen]
    exact i.isLt
  rw [getD_eq_getElem?_getD, getElem?_eq_getElem hk]
  simpa using hall i.val (by simp) hk

end Zilkworm.Trie
