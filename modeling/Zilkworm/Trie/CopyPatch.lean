/-
# Copying a branch against encoding it anew

`encode_branch` copies the witness node a branch was unfolded from, and rewrites the slots that were
changed, as long as no slot has another length than before.  What it writes is what encoding all
sixteen slots gives exactly when the node is spelt as `encode_branch` spells it.  The decoder takes
other spellings too: list headers that are not canonical, embedded nodes of 32 bytes, which count as
hashes afterwards, and in the first two slots single bytes and the empty list.
-/
import Mathlib.Algebra.BigOperators.Fin
import Mathlib.Algebra.Order.BigOperators.Group.Finset
import Zilkworm.Trie.Slots

namespace Zilkworm

open List

variable {n : ℕ} {i : Fin 16} {it : Item} {c : ChildRef} {src : Bytes}

namespace Lib

/-! ## Fields side by side -/

section Fields

variable {ι : Type} {f g : ι → Bytes}

/-- A write behind the first byte keeps it, and the length. -/
theorem writeAt_head {b bs : Bytes} {off : ℕ} (h : 0 < off) :
    (writeAt b off bs).length = b.length ∧ (writeAt b off bs).headD 0 = b.headD 0 := by
  cases b with
  | nil => exact ⟨by simp [writeAt], by simp [writeAt]⟩
  | cons x xs =>
    obtain ⟨off, rfl⟩ : ∃ k, off = k + 1 := ⟨off - 1, by omega⟩
    constructor
    · simp only [writeAt, length_take, length_append, length_drop]
      omega
    · rw [writeAt]
      rfl

/-- Fields of the same lengths are told apart by the bytes they make up. -/
theorem flatten_map_inj {l : List ι} (hlen : ∀ i ∈ l, (f i).length = (g i).length) :
    (l.map f).flatten = (l.map g).flatten ↔ ∀ i ∈ l, f i = g i := by
  induction l with
  | nil => simp
  | cons i l ih =>
    have hi := hlen i mem_cons_self
    rw [map_cons, map_cons, flatten_cons, flatten_cons, forall_mem_cons,
      ← ih fun j hj => hlen j (mem_cons_of_mem i hj)]
    constructor
    · exact fun h => append_inj h hi
    · rintro ⟨hfi, hl⟩
      rw [hfi, hl]

theorem flatten_finRange_length (f : Fin n → Bytes) :
    ((finRange n).map f).flatten.length = ∑ i, (f i).length := by
  rw [length_flatten, map_map, Fin.sum_univ_def]
  rfl

end Fields

end Lib

namespace Trie

open Lib Rlp Zilkworm.Types

/-! ## The calls on a branch -/

/-- A call on a branch.  A reference is copied into 32 bytes. -/
inductive SlotCall where
  | setChild (slot : Fin 16) (b : Bytes) (fits : b.length ≤ 32)
  | setChildHash (slot : Fin 16) (rlp : Bytes)
  | deleteChild (slot : Fin 16)

namespace SlotCall

/-- The slot a call changes. -/
def slot : SlotCall → Fin 16
  | setChild s _ _ | setChildHash s _ | deleteChild s => s

/-- What a call puts into its slot; `set_child` of no bytes leaves a placeholder. -/
def content (keccak256 : Bytes → Bytes32) : SlotCall → ChildRef
  | setChild _ b _ => if b = [] then .pending else .ref b
  | setChildHash _ rlp => .ref (keccak256 rlp).val
  | deleteChild _ => .empty

end SlotCall

namespace BranchNode

/-- The calls on a branch, one after another. -/
def run (keccak256 : Bytes → Bytes32) (b : BranchNode) (calls : List SlotCall) : BranchNode :=
  calls.foldl (fun b call => b.put call.slot (call.content keccak256)) b

/-- What no call changes, and what every call does: a slot is as before or dirty. -/
theorem run_spec (keccak256 : Bytes → Bytes32) (b : BranchNode) (calls : List SlotCall) :
    (b.run keccak256 calls).orig = b.orig ∧ (b.run keccak256 calls).origChildLen = b.origChildLen ∧
      ∀ i, ((b.run keccak256 calls).dirty i = true ↔ b.dirty i = true ∨ i ∈ calls.map SlotCall.slot) ∧
        (i ∉ calls.map SlotCall.slot → (b.run keccak256 calls).child i = b.child i) := by
  induction calls generalizing b with
  | nil => exact ⟨rfl, rfl, fun i => ⟨by simp [run], fun _ => rfl⟩⟩
  | cons call calls ih =>
    obtain ⟨horig, hlen, hslot⟩ := ih (b.put call.slot (call.content keccak256))
    refine ⟨horig, hlen, fun i => ⟨?_, fun hi => ?_⟩⟩
    · rw [map_cons, mem_cons]
      refine (hslot i).1.trans ?_
      rw [put]
      dsimp only
      by_cases hi : i = call.slot
      · subst hi
        simp
      · rw [Function.update_of_ne hi]
        simp [hi]
    · rw [map_cons, mem_cons, not_or] at hi
      refine ((hslot i).2 hi.2).trans ?_
      exact Function.update_of_ne hi.1 _ _

/-! ## Copying and patching -/

variable (stale : Fin 16 → UInt8)

theorem patchWalk_clean {b : BranchNode} (h : ∀ i, b.dirty i = false) (l : List (Fin 16)) (p : ℕ)
    (out : Bytes) : b.patchWalk stale l p out = out := by
  induction l generalizing p with
  | nil => rfl
  | cons i l ih =>
    rw [patchWalk]
    simp only [h i, Bool.false_eq_true, if_false]
    exact ih _

/-- In a node of hashes alone the slots lie 33 bytes apart. -/
theorem patchWalk_hashes {b : BranchNode} (h : ∀ i, b.origChildLen i = 32) (l : List (Fin 16)) (k : ℕ)
    (hl : l.map Fin.val = List.range' k l.length) (out : Bytes) :
    b.patchWalk stale l (3 + 33 * k) out =
      l.foldl (fun out i => if b.dirty i then
        writeAt out (3 + 33 * i.val) (0xa0 :: (b.child i).bytes (stale i)) else out) out := by
  induction l generalizing k out with
  | nil => rfl
  | cons i l ih =>
    rw [map_cons, length_cons, List.range'_succ, List.cons.injEq] at hl
    obtain ⟨rfl, hl⟩ := hl
    rw [patchWalk, foldl_cons]
    simp only [h i]
    exact ih (i.val + 1) hl _

/-- The shortcut for a branch of sixteen hashes, and the one for an unchanged branch, are the walk.
-/
theorem copyAndPatch_eq (b : BranchNode) (orig : Bytes) :
    b.copyAndPatch stale orig =
      b.patchWalk stale (finRange 16) (listHeaderLength (orig.headD 0)) orig := by
  unfold copyAndPatch
  split
  case isTrue hclean => rw [patchWalk_clean stale hclean]
  case isFalse =>
    split
    case isTrue hfull =>
      simp only [hasFullBranchOrig, decide_eq_true_eq] at hfull
      obtain ⟨-, hhead, hlens⟩ := hfull
      rw [hhead]
      exact (patchWalk_hashes stale hlens (finRange 16) 0 (by decide) orig).symm
    case isFalse => rfl

/-- The walk writes behind the header. -/
theorem patchWalk_head (b : BranchNode) (l : List (Fin 16)) {p : ℕ} (hp : 0 < p) (out : Bytes) :
    (b.patchWalk stale l p out).length = out.length ∧
      (b.patchWalk stale l p out).headD 0 = out.headD 0 := by
  induction l generalizing p out with
  | nil => exact ⟨rfl, rfl⟩
  | cons i l ih =>
    rw [patchWalk]
    obtain ⟨hlen, hhead⟩ := ih (p := p + slotSize (b.origChildLen i)) (by omega)
      (if b.dirty i then writeAt out p
      (patchItem (b.origChildLen i) ((b.child i).bytes (stale i))) else out)
    rw [hlen, hhead]
    split
    · exact writeAt_head hp
    · exact ⟨rfl, rfl⟩

/-- **What the walk writes**, if every slot of the node has the size of its length class. -/
theorem patchWalk_eq (b : BranchNode) {item : Fin 16 → Bytes} (l : List (Fin 16))
    (hitem : ∀ i ∈ l, (item i).length = slotSize (b.origChildLen i))
    (hnew : ∀ i ∈ l, (refItem ((b.child i).bytes (stale i))).length = slotSize (b.origChildLen i) ∧
      patchItem (b.origChildLen i) ((b.child i).bytes (stale i)) = refItem ((b.child i).bytes (stale i)))
    (pre tail : Bytes) :
    b.patchWalk stale l pre.length (pre ++ ((l.map item).flatten ++ tail)) =
      pre ++
        ((l.map fun i => if b.dirty i then refItem ((b.child i).bytes (stale i)) else item i).flatten ++
        tail) := by
  induction l generalizing pre with
  | nil => rfl
  | cons i l ih =>
    obtain ⟨hlen, hpatch⟩ := hnew i mem_cons_self
    have hi := hitem i mem_cons_self
    simp only [map_cons, flatten_cons, append_assoc]
    rw [patchWalk, hpatch]
    set x := if b.dirty i then refItem ((b.child i).bytes (stale i)) else item i with hx
    have hxlen : x.length = slotSize (b.origChildLen i) := by
      rw [hx]
      split
      · exact hlen
      · exact hi
    have hout : (if b.dirty i then writeAt (pre ++ (item i ++ ((l.map item).flatten ++ tail))) pre.length
          (refItem ((b.child i).bytes (stale i))) else pre ++
          (item i ++ ((l.map item).flatten ++ tail))) =
        (pre ++ x) ++ ((l.map item).flatten ++ tail) := by
      rw [hx, append_assoc]
      split
      · exact writeAt_append (hlen.trans hi.symm)
      · rfl
    have htail := ih (fun j hj => hitem j (mem_cons_of_mem i hj))
      (fun j hj => hnew j (mem_cons_of_mem i hj)) (pre ++ x)
    rw [length_append, hxlen] at htail
    rw [hout, htail, append_assoc]

end BranchNode

/-! ## A slot's item and the reference read from it -/

theorem ChildRef.bytes_length (s : UInt8) (c : ChildRef) : (c.bytes s).length = c.len := by
  cases c <;> rfl

theorem refItem_length (b : Bytes) : (refItem b).length = BranchNode.slotSize b.length := by
  unfold refItem BranchNode.slotSize
  split_ifs with h0 h32
  · rfl
  · rw [length_cons, h32]
  · rfl

theorem patchItem_eq {len : ℕ} {b : Bytes} (h : b.length = len) :
    BranchNode.patchItem len b = refItem b := by
  subst h
  rfl

theorem refItem_ref {b : Bytes} (h0 : b ≠ []) (h32 : b.length ≠ 32) : refItem b = b := by
  rw [refItem, if_neg (by simpa using h0), if_neg h32]

theorem refItem_hash {b : Bytes} (h : b.length = 32) : refItem b = 0xa0 :: b := by
  rw [refItem, if_neg (by omega), if_pos h]

/-- An item that `encode_branch` writes for what is read from it: not one of 32 bytes, and in the
first two slots no single byte but the empty string. -/
def WellSpelt (i : Fin 16) (it : Item) : Prop :=
  it.encode.length ≠ 32 ∧ (i.val < 2 → it.encode.length = 1 → it = .empty)

/-- How an item and the reference read from it compare. -/
inductive Spelling (i : Fin 16) (it : Item) (c : ChildRef) : Prop where
  | same (hit : WellSpelt i it) (h : ∀ s, refItem (c.bytes s) = it.encode)
  | shorter (hit : ¬ WellSpelt i it) (hne : it ≠ emptyListItem)
    (h : it.encode.length + 1 = BranchNode.slotSize c.len)
  | emptyList (hi : i.val < 2) (hit : it = emptyListItem) (hc : c = .empty)

/-- A reference that is its own item, of 32 bytes or not. -/
theorem Spelling.of_ref (h2 : i.val < 2 → 2 ≤ it.encode.length) :
    Spelling i it (.ref it.encode) := by
  by_cases h32 : it.encode.length = 32
  · refine .shorter (fun h => h.1 h32) ?_ ?_
    · rintro rfl
      cases h32
    · show it.encode.length + 1 = BranchNode.slotSize it.encode.length
      rw [h32]
      rfl
  · refine .same ⟨h32, fun hi h1 => ?_⟩ fun s => refItem_ref it.encode_ne_nil h32
    omega

theorem Spelling.of_empty : Spelling i .empty .empty :=
  .same ⟨by decide, fun _ _ => rfl⟩ fun _ => rfl

theorem Spelling.of_hash (hl : it.list = false) (hn : it.data.length = 32) :
    Spelling i it (.ref it.data) := by
  have henc := encode_hash hl hn
  have hlen : it.encode.length = 33 := by rw [henc, length_cons, hn]
  refine .same ⟨by omega, fun _ h1 => by omega⟩ fun s => ?_
  rw [henc]
  exact refItem_hash hn

theorem Spelling.of_slotRef (hi : ¬ i.val < 2) (h : slotRef it = some c) : Spelling i it c := by
  unfold slotRef at h
  split at h
  case isTrue =>
    split at h
    case isFalse => cases h
    case isTrue =>
      cases h
      exact .of_ref fun hlt => absurd hlt hi
  case isFalse hl =>
    split at h
    case isTrue hnil =>
      cases h
      obtain ⟨list, data, hfits⟩ := it
      obtain rfl : list = false := by simpa using hl
      subst hnil
      exact .of_empty
    case isFalse =>
      split at h
      case isFalse => cases h
      case isTrue hn =>
        cases h
        exact .of_hash (by simpa using hl) hn

theorem Spelling.of_leadRef (hi : i.val < 2) (h : leadRef it = some c) : Spelling i it c := by
  unfold leadRef fillBranchChild at h
  split at h
  case isTrue hnil =>
    cases h
    obtain ⟨list, data, hfits⟩ := it
    subst hnil
    cases list with
    | false => exact .of_empty
    | true => exact .emptyList hi rfl rfl
  case isFalse hdata =>
  split at h
  case isFalse ha0 =>
    cases h
    obtain ⟨hl, hn⟩ := hash_of_head (not_not.mp ha0)
    exact .of_hash hl hn
  case isTrue =>
  split at h
  case isTrue => cases h
  case isFalse hn =>
    cases h
    have hpos : 1 ≤ it.data.length := length_pos_iff.mpr hdata
    rcases hl : it.list with _ | _
    · rcases encode_string_short hl (by omega) with ⟨b, -, hb, henc⟩ | henc
      · -- a byte that needs no header is stored with itself for one
        have hne : it ≠ .empty ∧ it ≠ emptyListItem := by
          constructor <;> rintro rfl <;> cases hb
        refine .shorter (fun hw => hne.1 (hw.2 hi (by rw [henc]; rfl))) hne.2 ?_
        rw [henc, hb]
        rfl
      · have href : it.encode.headD 0 :: it.data = it.encode := by rw [henc]; rfl
        rw [href]
        exact .of_ref fun _ => by rw [henc, length_cons]; omega
    · have henc := encode_list_short hl (by omega)
      have href : it.encode.headD 0 :: it.data = it.encode := by rw [henc]; rfl
      rw [href]
      exact .of_ref fun _ => by rw [henc, length_cons]; omega

/-- **The spelling of what a slot is read as.** -/
theorem Spelling.of_readAt (h : readAt i it = some c) : Spelling i it c := by
  unfold readAt at h
  split at h
  case isTrue hi => exact .of_leadRef hi h
  case isFalse hi => exact .of_slotRef hi h

/-- What is written for a reference is never shorter than the item it was read from. -/
theorem Spelling.length_le (h : Spelling i it c) :
    it.encode.length ≤ BranchNode.slotSize c.len := by
  cases h with
  | same _ h => rw [← h 0, refItem_length, ChildRef.bytes_length]
  | shorter _ _ h => omega
  | emptyList _ hit hc =>
    subst hit hc
    exact le_rfl

/-- When the item in a slot stays what the branch holds there: `new` is what is written for the
slot. -/
theorem Spelling.agrees_iff (h : Spelling i it c) {new : Bytes} {dirty : Prop}
    (hlen : new.length = BranchNode.slotSize c.len) {s : UInt8}
    (hclean : ¬ dirty → new = refItem (c.bytes s)) :
    (it.encode.length = new.length ∧ (¬ dirty → it.encode = new)) ↔
      WellSpelt i it ∨ i.val < 2 ∧ it = emptyListItem ∧ dirty := by
  cases h with
  | same hit h =>
    refine ⟨fun _ => .inl hit, fun _ => ⟨?_, fun hd => by rw [hclean hd, h]⟩⟩
    rw [← h s, refItem_length, ChildRef.bytes_length, hlen]
  | shorter hit hne h =>
    constructor
    · rintro ⟨hl, -⟩
      omega
    · rintro (hw | ⟨-, he, -⟩)
      · exact absurd hw hit
      · exact absurd he hne
  | emptyList hi hit hc =>
    subst hit hc
    constructor
    · rintro ⟨-, hd⟩
      refine .inr ⟨hi, rfl, ?_⟩
      by_contra hnd
      exact absurd ((hd hnd).trans (hclean hnd))
        (show emptyListItem.encode ≠ [kEmptyStringCode] by decide)
    · rintro (hw | ⟨-, -, hd⟩)
      · exact absurd (hw.2 hi rfl) (by decide)
      · exact ⟨hlen.symm, fun hnd => absurd hd hnd⟩

/-- A reference has at most 32 bytes. -/
theorem readAt_len (h : readAt i it = some c) : c.len ≤ 32 := by
  unfold readAt at h
  split at h
  case isTrue =>
    unfold leadRef fillBranchChild at h
    split at h
    case isTrue =>
      cases h
      exact Nat.zero_le _
    case isFalse =>
    split at h
    case isTrue =>
      split at h
      case isTrue => cases h
      case isFalse hn =>
        cases h
        exact Nat.succ_le_succ (not_lt.mp hn)
    case isFalse ha0 =>
      cases h
      exact (hash_of_head (not_not.mp ha0)).2.le
  case isFalse =>
    unfold slotRef at h
    split at h
    case isTrue hl =>
      split at h
      case isFalse => cases h
      case isTrue hn =>
        cases h
        rw [ChildRef.len, encode_list_short hl (by omega), length_cons]
        omega
    case isFalse =>
      split at h
      case isTrue =>
        cases h
        exact Nat.zero_le _
      case isFalse =>
        split at h
        case isFalse => cases h
        case isTrue hn =>
          cases h
          exact hn.le

theorem slotSize_le (h : n ≤ 32) : BranchNode.slotSize n ≤ 33 := by
  unfold BranchNode.slotSize
  split_ifs <;> omega

/-! ## The witness node -/

open BranchNode

/-- What `fast_decode_header` accepts: the header, by its first byte, and the list behind it. -/
theorem fastDecodeHeader_spec {list : Bytes} (h : fastDecodeHeader src = some list) :
    0 < listHeaderLength (src.headD 0) ∧ listHeaderLength (src.headD 0) ≤ src.length ∧
      list = (src.drop (listHeaderLength (src.headD 0))).take list.length := by
  have hbyte := (src.headD 0).toNat_lt
  unfold fastDecodeHeader at h
  split at h
  case isTrue => cases h
  case isFalse hlen =>
  dsimp only at h
  split at h
  case isTrue => cases h
  case isFalse hfirst =>
  have htake : ∀ (b : Bytes) (n : ℕ), b.take n = b.take (b.take n).length := by
    intro b n
    rw [length_take, ← take_eq_take_min]
  have hlt : src.headD 0 < 0xf8 ↔ (src.headD 0).toNat % 64 ≤ 55 := by
    show (src.headD 0).toNat < 0xf8 ↔ _
    omega
  unfold listHeaderLength
  split at h
  case isTrue h55 =>
    cases h
    rw [if_pos (hlt.mpr h55)]
    exact ⟨by omega, by omega, htake _ _⟩
  case isFalse h55 =>
    cases h
    rw [if_neg (hlt.not.mpr h55)]
    have hoffset : (src.headD 0).toNat - 0xf7 = (src.headD 0).toNat % 64 - 55 := by omega
    rw [hoffset]
    exact ⟨by omega, by omega, htake _ _⟩

/-- The first byte of a list header tells its length. -/
theorem listHeaderLength_encodeHeader (h : n < 2 ^ 64) (rest : Bytes) :
    listHeaderLength ((encodeHeader ⟨true, n⟩ ++ rest).headD 0) = (encodeHeader ⟨true, n⟩).length := by
  unfold encodeHeader listHeaderLength
  dsimp only
  split
  case isTrue hn =>
    have hb := @toNat_ofNat_byte (0xC0 + n) (by omega)
    rw [if_pos rfl, cons_append, headD_cons, if_pos]
    · rfl
    · rw [UInt8.lt_iff_toNat_lt, hb]
      show _ < 0xf8
      omega
  case isFalse hn =>
    have hk := toBigCompact_length (show n < 256 ^ 8 by omega)
    have hpos := @toBigCompact_pos n (by omega)
    have hb := @toNat_ofNat_byte (0xF7 + (toBigCompact n).length) (by omega)
    rw [if_pos rfl, cons_append, headD_cons, if_neg, hb, length_cons]
    · omega
    · rw [UInt8.lt_iff_toNat_lt, hb]
      show ¬ _ < 0xf8
      omega

/-! ## The two encodings -/

section Encodings

variable {stale : Fin 16 → UInt8} {b : BranchNode} {hdr : Bytes} {old : Fin 16 → Bytes}

/-- The copy and the new encoding of a branch whose slots are nowhere longer than what is written
for them: the first byte fixes the length of the header, so equal encodings have equal slots. -/
theorem patchWalk_eq_encodeAnew (hhdr : listHeaderLength (hdr.headD 0) = hdr.length) (hpos : hdr ≠ [])
    (hlayout : ∀ i, (b.child i).len = b.origChildLen i)
    (hle : ∀ i, (old i).length ≤ slotSize (b.origChildLen i))
    (hsize : ∀ i, slotSize (b.origChildLen i) ≤ 33) :
    b.patchWalk stale (finRange 16) hdr.length
        (hdr ++ (((finRange 16).map old).flatten ++ [kEmptyStringCode])) = b.encodeAnew stale ↔
      hdr = encodeHeader ⟨true, (((finRange 16).map old).flatten ++ [kEmptyStringCode]).length⟩ ∧
        ∀ i, (old i).length = (refItem ((b.child i).bytes (stale i))).length ∧
          (¬ b.dirty i = true → old i = refItem ((b.child i).bytes (stale i))) := by
  set new : Fin 16 → Bytes := fun i => refItem ((b.child i).bytes (stale i)) with hnew
  have hnewlen : ∀ i, (new i).length = slotSize (b.origChildLen i) := by
    intro i
    rw [hnew]
    dsimp only
    rw [refItem_length, ChildRef.bytes_length, hlayout i]
  have hpatch : ∀ i, patchItem (b.origChildLen i) ((b.child i).bytes (stale i)) = new i := fun i =>
    patchItem_eq (by rw [ChildRef.bytes_length, hlayout i])
  have hanew : b.encodeAnew stale = encodeHeader ⟨true, (((finRange 16).map new).flatten ++
      [kEmptyStringCode]).length⟩ ++ (((finRange 16).map new).flatten ++ [kEmptyStringCode]) := rfl
  have hwalk : (∀ i, (old i).length = (new i).length) →
      b.patchWalk stale (finRange 16) hdr.length
        (hdr ++ (((finRange 16).map old).flatten ++ [kEmptyStringCode])) =
      hdr ++ (((finRange 16).map fun i => if b.dirty i then new i else old i).flatten ++
        [kEmptyStringCode]) := fun hlen =>
    patchWalk_eq stale b (finRange 16) (fun i _ => (hlen i).trans (hnewlen i))
      (fun i _ => ⟨hnewlen i, hpatch i⟩) hdr _
  have hsum : ∀ f : Fin 16 → Bytes, (((finRange 16).map f).flatten ++ [kEmptyStringCode]).length =
      (∑ i, (f i).length) + 1 := by
    intro f
    rw [length_append, flatten_finRange_length]
    rfl
  have hpayload : (∀ i, (old i).length = (new i).length) →
      (((finRange 16).map old).flatten ++ [kEmptyStringCode]).length =
        (((finRange 16).map new).flatten ++ [kEmptyStringCode]).length := fun hlen => by
    rw [hsum, hsum, Finset.sum_congr rfl fun i _ => hlen i]
  have hfits : (((finRange 16).map new).flatten ++ [kEmptyStringCode]).length < 2 ^ 64 := by
    have hle33 := Finset.sum_le_card_nsmul Finset.univ (fun i => (new i).length) 33
      fun i _ => (hnewlen i).trans_le (hsize i)
    rw [Finset.card_univ, Fintype.card_fin, smul_eq_mul] at hle33
    rw [hsum]
    omega
  constructor
  · intro heq
    obtain ⟨hlenC, hheadC⟩ := patchWalk_head stale b (finRange 16) (length_pos_iff.mpr hpos)
      (hdr ++ (((finRange 16).map old).flatten ++ [kEmptyStringCode]))
    have hhead : (hdr ++ (((finRange 16).map old).flatten ++ [kEmptyStringCode])).headD 0 =
        hdr.headD 0 := by
      rcases hdr with _ | ⟨x, xs⟩
      · exact absurd rfl hpos
      · rfl
    have hheader := listHeaderLength_encodeHeader hfits
      (((finRange 16).map new).flatten ++ [kEmptyStringCode])
    rw [← hanew, ← heq, hheadC, hhead, hhdr] at hheader
    have htotal : ∑ i, (old i).length = ∑ i, (new i).length := by
      have hlens := congrArg List.length heq
      rw [hlenC, hanew, @List.length_append _ hdr, @List.length_append _ (encodeHeader _), ← hheader,
        hsum old, hsum new] at hlens
      omega
    have hlen : ∀ i, (old i).length = (new i).length := fun i =>
      (Finset.sum_eq_sum_iff_of_le fun j _ => (hle j).trans_eq (hnewlen j).symm).mp htotal i
        (Finset.mem_univ i)
    rw [hwalk hlen, hanew] at heq
    obtain ⟨hhdrs, hslots⟩ := append_inj heq hheader
    have hflat := (append_inj' hslots rfl).1
    rw [flatten_map_inj fun i _ => by split <;> [rfl; exact hlen i]] at hflat
    refine ⟨hhdrs.trans (by rw [hpayload hlen]), fun i => ⟨hlen i, fun hclean => ?_⟩⟩
    have hi := hflat i (mem_finRange i)
    rwa [if_neg hclean] at hi
  · rintro ⟨hhdrs, hall⟩
    have hlen : ∀ i, (old i).length = (new i).length := fun i => (hall i).1
    have hslots : ((finRange 16).map fun i => if b.dirty i then new i else old i) =
        (finRange 16).map new := by
      refine map_congr_left fun i _ => ?_
      split
      · rfl
      · rename_i hclean
        exact (hall i).2 hclean
    rw [hwalk hlen, hanew, hslots, hhdrs, hpayload hlen]

/-- Whether `encode_branch` copies the witness node. -/
def BranchNode.copies (b : BranchNode) : Bool := b.mask ≠ [] ∧ b.orig ≠ none ∧ b.sameLayoutAsOrig

/-- A node that is spelt as `encode_branch` spells it: its list header is canonical, and so are its
slots.  An empty list in one of the first two slots, which is read as an empty slot, does no harm
when the slot was written since. -/
def SpeltAsEncoded (src list : Bytes) (calls : List SlotCall) : Prop :=
  encodeHeader ⟨true, list.length⟩ <+: src ∧
    ∃ its : Fin 16 → Item, list = branchPayload its ∧
      ∀ i, WellSpelt i (its i) ∨ i.val < 2 ∧ its i = emptyListItem ∧ i ∈ calls.map SlotCall.slot

/-- The canonical header is the node's own if the node starts with it. -/
theorem take_header_iff (hn : n < 2 ^ 64) :
    src.take (listHeaderLength (src.headD 0)) = encodeHeader ⟨true, n⟩ ↔
      encodeHeader ⟨true, n⟩ <+: src := by
  constructor
  · intro h
    rw [← h]
    exact take_prefix _ _
  · rintro ⟨rest, rfl⟩
    rw [listHeaderLength_encodeHeader hn, take_left]

/-- The branch of a node that is remembered. -/
theorem unfold_orig {list orig : Bytes} {cs : List ChildRef}
    (hsrc : fastDecodeHeader src = some list) (h : (BranchNode.unfold src list cs).orig = some orig)
    :
    orig = src.take (listHeaderLength (src.headD 0)) ++ list ∧
      (∀ i, (BranchNode.unfold src list cs).origChildLen i = (cs.getD i.val .empty).len) ∧
      ∀ i, (BranchNode.unfold src list cs).dirty i = false := by
  obtain ⟨-, -, hdrop⟩ := fastDecodeHeader_spec hsrc
  unfold BranchNode.unfold at h ⊢
  dsimp only at h ⊢
  split at h
  case isFalse => cases h
  case isTrue hsize =>
    cases h
    rw [if_pos hsize]
    refine ⟨?_, fun i => rfl, fun i => rfl⟩
    rw [take_add, ← hdrop]

theorem unfold_child (src list : Bytes) (cs : List ChildRef) (i : Fin 16) :
    (BranchNode.unfold src list cs).child i = cs.getD i.val .empty := by
  unfold BranchNode.unfold
  dsimp only
  split <;> rfl

/-- **When copying is encoding anew.**  For every node that is accepted as a branch and every
sequence of calls on it, `encode_branch`, where it copies, returns what encoding all sixteen slots
returns exactly if the node is spelt as `encode_branch` spells it. -/
theorem encodeBranch_eq_anew_iff (keccak256 : Bytes → Bytes32) (stale : Fin 16 → UInt8)
    {src list : Bytes} {cs : List ChildRef} (hsrc : fastDecodeHeader src = some list)
    (hlist : decodeNode list = some (.branch cs)) (calls : List SlotCall)
    (hcopy : ((BranchNode.unfold src list cs).run keccak256 calls).copies = true) :
    encodeBranch stale ((BranchNode.unfold src list cs).run keccak256 calls) =
        ((BranchNode.unfold src list cs).run keccak256 calls).encodeAnew stale ↔
      SpeltAsEncoded src list calls := by
  obtain ⟨hpos, hle, -⟩ := fastDecodeHeader_spec hsrc
  obtain ⟨its, rfl, hrefs⟩ := decodeNode_slots hlist
  obtain ⟨horig, hlens, hslots⟩ :=
    run_spec keccak256 (BranchNode.unfold src (branchPayload its) cs) calls
  set b := (BranchNode.unfold src (branchPayload its) cs).run keccak256 calls
  simp only [BranchNode.copies, decide_eq_true_eq, sameLayoutAsOrig] at hcopy
  obtain ⟨hmask, hsome, hlayout⟩ := hcopy
  obtain ⟨orig, hb⟩ := Option.ne_none_iff_exists'.mp hsome
  obtain ⟨rfl, horiglen, hclean⟩ := unfold_orig hsrc (horig.symm.trans hb)
  set hdr := src.take (listHeaderLength (src.headD 0)) with hhdr
  have hhdrlen : hdr.length = listHeaderLength (src.headD 0) := length_take_of_le hle
  have hhdrhead : hdr.headD 0 = src.headD 0 := by
    obtain ⟨n, hn⟩ : ∃ n, listHeaderLength (src.headD 0) = n + 1 :=
      ⟨_, (Nat.succ_pred_eq_of_pos hpos).symm⟩
    rw [hhdr, hn]
    cases src <;> rfl
  have hhdrne : hdr ≠ [] := length_pos_iff.mp (hhdrlen ▸ hpos)
  have hspell := fun i => Spelling.of_readAt (hrefs i)
  have hlen : ∀ i, b.origChildLen i = (cs.getD i.val .empty).len := fun i => by rw [hlens, horiglen i]
  have hencode : encodeBranch stale b =
      b.patchWalk stale (finRange 16) hdr.length (hdr ++ branchPayload its) := by
    have hhead : (hdr ++ branchPayload its).headD 0 = hdr.headD 0 := by
      rcases hdr with _ | ⟨x, xs⟩
      · exact absurd rfl hhdrne
      · rfl
    rw [encodeBranch, if_neg hmask, hb]
    dsimp only
    rw [if_pos (by simpa [sameLayoutAsOrig] using hlayout), copyAndPatch_eq, hhead, hhdrhead, hhdrlen]
  rw [hencode, branchPayload, patchWalk_eq_encodeAnew (by rw [hhdrhead, hhdrlen]) hhdrne hlayout
    (fun i => by rw [hlen]; exact (hspell i).length_le)
    (fun i => by rw [hlen]; exact slotSize_le (readAt_len (hrefs i)))]
  have hdirty : ∀ i, b.dirty i = true ↔ i ∈ calls.map SlotCall.slot := fun i => by
    rw [(hslots i).1, hclean i]
    simp
  have hagree : ∀ i, ((its i).encode.length = (refItem ((b.child i).bytes (stale i))).length ∧
      (¬ b.dirty i = true → (its i).encode = refItem ((b.child i).bytes (stale i)))) ↔
      WellSpelt i (its i) ∨ i.val < 2 ∧ its i = emptyListItem ∧ i ∈ calls.map SlotCall.slot := by
    intro i
    rw [← hdirty i]
    refine (hspell i).agrees_iff (s := stale i) ?_ fun hd => ?_
    · rw [refItem_length, ChildRef.bytes_length, hlayout i, hlen i]
    · rw [(hslots i).2 ((hdirty i).not.mp hd), unfold_child]
  have hfits : (branchPayload its).length < 2 ^ 64 := by
    have hle33 := Finset.sum_le_card_nsmul Finset.univ (fun i => ((its i).encode).length) 33
      fun i _ => (hspell i).length_le.trans (slotSize_le (readAt_len (hrefs i)))
    rw [Finset.card_univ, Fintype.card_fin, smul_eq_mul] at hle33
    rw [branchPayload, length_append, flatten_finRange_length, length_singleton]
    omega
  refine and_congr (take_header_iff hfits) ?_
  constructor
  · exact fun h => ⟨its, rfl, fun i => (hagree i).mp (h i)⟩
  · rintro ⟨its', heq, h⟩ i
    obtain rfl := branchPayload_injective heq
    exact (hagree i).mpr (h i)

instance (i : Fin 16) (it : Item) : Decidable (WellSpelt i it) := by
  unfold WellSpelt
  infer_instance

/-- A hash of one byte over and over. -/
def sampleHash (x : UInt8) : Item := ⟨false, replicate 32 x, by simp⟩

/-- The items of a branch of two hashes and an embedded node. -/
def sampleItems (i : Fin 16) : Item :=
  if i = 0 then sampleHash 1 else if i = 7 then sampleHash 2
  else if i = 9 then ⟨true, [0x20, 0x05], by decide⟩ else .empty

/-- The encoding of a child, and its keccak. -/
def sampleChild : Bytes := 0xe1 :: 0xa0 :: replicate 32 0x20

def sampleChildHash : Bytes32 :=
  ⟨[0x18, 0x16, 0xa6, 0x01, 0x81, 0xac, 0x85, 0x14, 0x27, 0xdb, 0x93, 0x44, 0x0d, 0xef, 0xa1, 0x48,
      0xcf, 0xf4, 0xe7, 0x50, 0x32, 0xae, 0x12, 0x93, 0xd7, 0x0c, 0x41, 0x0d, 0xe7, 0x00, 0x13,
      0xf6], by decide⟩

/-- Three calls on it: a child that was folded, a slot that is deleted and filled again. -/
def sampleCalls : List SlotCall :=
  [.setChildHash 7 sampleChild, .deleteChild 9, .setChild 9 [0xc2, 0x20, 0x06] (by decide)]

/-- The copy of the sample branch, with two slots patched, is its new encoding. -/
theorem encodeBranch_sample :
    encodeBranch (fun _ => 0) ((BranchNode.unfold (encodeList (branchPayload sampleItems))
        (branchPayload sampleItems)
          ((finRange 16).map fun i => (readAt i (sampleItems i)).getD .empty)).run
          (fun _ => sampleChildHash) sampleCalls) =
      ((BranchNode.unfold (encodeList (branchPayload sampleItems)) (branchPayload sampleItems)
        ((finRange 16).map fun i => (readAt i (sampleItems i)).getD .empty)).run
          (fun _ => sampleChildHash) sampleCalls).encodeAnew (fun _ => 0) :=
  (encodeBranch_eq_anew_iff (fun _ => sampleChildHash) (fun _ => 0) (by decide +kernel)
    (by decide +kernel)
    sampleCalls (by decide +kernel)).mpr
    ⟨⟨branchPayload sampleItems, rfl⟩, sampleItems, rfl, by decide +kernel⟩

/-- A branch of one hash under a header of two bytes, where `0xf1` would do. -/
def longHeaderNode : Bytes := 0xf8 :: 0x31 :: 0xa0 :: (replicate 32 1 ++ replicate 16 kEmptyStringCode)

/-- A branch with an embedded node of 32 bytes in its third slot. -/
def longEmbeddedNode : Bytes :=
  0xf0 :: 0x80 :: 0x80 :: 0xdf :: (replicate 31 1 ++ replicate 14 kEmptyStringCode)

/-- Unchanged, the one is returned with its header and the other with its slot; encoded anew, the
header is canonical and the embedded node is written as a hash. -/
theorem encodeBranch_keeps_spelling :
    (fastDecodeHeader longHeaderNode = some (longHeaderNode.drop 2) ∧
      decodeNode (longHeaderNode.drop 2) =
        some (.branch (.ref (replicate 32 1) :: replicate 15 .empty)) ∧
      encodeBranch (fun _ => 0) (.unfold longHeaderNode (longHeaderNode.drop 2)
        (.ref (replicate 32 1) :: replicate 15 .empty)) = longHeaderNode ∧
      (BranchNode.unfold longHeaderNode (longHeaderNode.drop 2)
        (.ref (replicate 32 1) :: replicate 15 .empty)).encodeAnew (fun _ => 0) =
          0xf1 :: longHeaderNode.drop 2) ∧
    (fastDecodeHeader longEmbeddedNode = some (longEmbeddedNode.drop 1) ∧
      decodeNode (longEmbeddedNode.drop 1) =
        some (.branch (.empty :: .empty :: .ref (0xdf :: replicate 31 1) :: replicate 13 .empty)) ∧
      encodeBranch (fun _ => 0) (.unfold longEmbeddedNode (longEmbeddedNode.drop 1)
        (.empty :: .empty :: .ref (0xdf :: replicate 31 1) :: replicate 13 .empty)) =
          longEmbeddedNode ∧
      (BranchNode.unfold longEmbeddedNode (longEmbeddedNode.drop 1)
        (.empty :: .empty :: .ref (0xdf :: replicate 31 1) :: replicate 13 .empty)).encodeAnew
          (fun _ => 0) =
        0xf1 :: 0x80 :: 0x80 :: 0xa0 :: 0xdf :: (replicate 31 1 ++ replicate 14 kEmptyStringCode)) := by
  refine ⟨⟨?_, ?_, ?_, ?_⟩, ?_, ?_, ?_, ?_⟩ <;> decide +kernel

end Encodings

end Trie
end Zilkworm
