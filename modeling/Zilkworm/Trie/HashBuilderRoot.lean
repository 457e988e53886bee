/-
# The hash builder computes the canonical root

The leaves come in ascending order.  When the pending leaf is `cur`, the part of the trie to its
left is done: at each depth, the children of the node on the way to `cur` whose digits are smaller
than that of `cur`.  Their references are on the stack, those of the deepest node on top, and
`groups` has their digits.  One round of `gen_struct_step` lifts the finished node on the way to
`cur` to the next depth at which something branches off, and closes the branch there unless the
succeeding key still goes through it.
-/
import Mathlib.Data.List.DropRight
import Mathlib.Data.List.Sort
import Mathlib.Order.Fin.Basic
import Zilkworm.Trie.MerklePatricia

namespace Zilkworm.Trie

open List Lib Rlp Zilkworm.Types State

variable {groups : List (BitVec 16)} {d len m q : ℕ} {x y : Fin 16} {a b path : Nibbles}

/-! ## Groups -/

theorem length_setDigit (groups : List (BitVec 16)) (len digit : ℕ) :
    (setDigit groups len digit).length = max groups.length (len + 1) := by
  simp only [setDigit, length_set, length_append, length_replicate]
  omega

theorem getD_setDigit (groups : List (BitVec 16)) (len digit d : ℕ) :
    (setDigit groups len digit).getD d 0 =
      if d = len then groups.getD len 0 ||| BitVec.ofNat 16 (1 <<< digit) else groups.getD d 0 := by
  have hgrow : ∀ i, (groups ++ replicate (len + 1 - groups.length) 0).getD i 0 = groups.getD i 0 := by
    intro i
    simp only [getD_eq_getElem?_getD, getElem?_append]
    split
    · rfl
    · rename_i hi
      rw [getElem?_eq_none (Nat.not_lt.mp hi), getElem?_replicate]
      split <;> rfl
  have hlen : len < (groups ++ replicate (len + 1 - groups.length) 0).length := by
    simp only [length_append, length_replicate]
    omega
  rw [setDigit, getD_eq_getElem?_getD, getElem?_set, hgrow]
  by_cases hd : d = len
  · subst hd
    rw [if_pos rfl, if_pos hlen, if_pos rfl]
    rfl
  · rw [if_neg (Ne.symm hd), if_neg hd, ← getD_eq_getElem?_getD, hgrow]

theorem popEmptyGroups_eq (groups : List (BitVec 16)) :
    popEmptyGroups groups = groups.rdropWhile (· == 0) := rfl

theorem getD_popEmptyGroups (groups : List (BitVec 16)) (d : ℕ) :
    (popEmptyGroups groups).getD d 0 = groups.getD d 0 := by
  rw [popEmptyGroups_eq]
  induction groups using List.reverseRecOn with
  | nil => rfl
  | append_singleton groups m ih =>
    rw [rdropWhile_concat]
    split
    · rename_i hm
      rw [beq_iff_eq] at hm
      subst hm
      rw [ih]
      simp only [getD_eq_getElem?_getD, getElem?_append]
      split
      · rfl
      · rename_i hd
        rw [getElem?_eq_none (Nat.not_lt.mp hd), getElem?_singleton]
        split <;> rfl
    · rfl

/-- The last group that is kept has a digit. -/
theorem last_popEmptyGroups (h : popEmptyGroups groups ≠ []) :
    (popEmptyGroups groups).getD ((popEmptyGroups groups).length - 1) 0 ≠ 0 := by
  rw [popEmptyGroups_eq] at h ⊢
  have hlast := rdropWhile_last_not (· == 0) groups h
  rw [getLast_eq_getElem] at hlast
  rw [getD_eq_getElem?_getD, getElem?_eq_getElem (by have := length_pos_iff.mpr h; omega)]
  simpa using hlast

/-! ## Branches -/

theorem branchItems_eq (mask : BitVec 16) (f : ℕ → Bytes) (ds : List ℕ) :
    branchItems mask ds ((ds.filter mask.getLsbD).map f) =
      (ds.map fun d => if mask.getLsbD d then f d else [kEmptyStringCode]) ++ [[kEmptyStringCode]] := by
  induction ds with
  | nil => rfl
  | cons d ds ih =>
    rw [branchItems]
    cases hd : mask.getLsbD d with
    | true => simp [hd, ih]
    | false => simp [hd, ih]

/-- `branch_ref` of the references of a branch's children. -/
theorem branchRef_eq (keccak256 : Bytes → Bytes32) {mask : BitVec 16} {children : Fin 16 → Mpt}
    (hmask : ∀ i : Fin 16, mask.getLsbD i.val = !(children i).isEmpty) (rest : List Bytes) :
    branchRef keccak256 mask
        ((((finRange 16).filter fun i => !(children i).isEmpty).map
          fun i => mptRef keccak256 (children i)).reverse ++ rest) =
      mptRef keccak256 (.branch children) :: rest := by
  have hrange : range 16 = (finRange 16).map Fin.val := by decide
  set refs := ((finRange 16).filter fun i => !(children i).isEmpty).map fun i =>
    mptRef keccak256 (children i)
    with hrefs
  set f : ℕ → Bytes := fun d => if h : d < 16 then mptRef keccak256 (children ⟨d, h⟩) else [] with hf
  have hfilter : (range 16).filter mask.getLsbD =
      ((finRange 16).filter fun i => !(children i).isEmpty).map Fin.val := by
    rw [hrange, filter_map]
    congr 1
    exact filter_congr fun i _ => hmask i
  have hchildren : refs = ((range 16).filter mask.getLsbD).map f := by
    rw [hfilter, map_map, hrefs]
    refine map_congr_left fun i _ => ?_
    simp [hf]
  have hlen : ((range 16).filter mask.getLsbD).length = refs.reverse.length := by
    rw [hchildren, length_reverse, length_map]
  have hitems : ((range 16).map fun d => if mask.getLsbD d then f d else [kEmptyStringCode]) =
      (finRange 16).map fun i => mptRef keccak256 (children i) := by
    rw [hrange, map_map]
    refine map_congr_left fun i _ => ?_
    simp only [Function.comp_apply, hmask, hf, i.isLt, dite_true]
    by_cases hi : (children i).isEmpty = true
    · rw [hi, Patricia.isEmpty_iff.mp hi]
      rfl
    · simp [hi]
  rw [branchRef, hlen, take_left, drop_left, reverse_reverse, hchildren, branchItems_eq, hitems]
  simp only [flatten_append, mptRef, mptNode]
  rfl

/-! ## The way to a key -/

theorem take_succ_getD {cur : Nibbles} (hd : d < cur.length) :
    cur.take (d + 1) = cur.take d ++ [cur.getD d 0] := by
  rw [take_add_one, getElem?_eq_getElem hd, getD_eq_getElem?_getD, getElem?_eq_getElem hd]
  rfl

theorem take_append_getD {cur : Nibbles} (hd : d < cur.length) :
    cur = cur.take d ++ cur.getD d 0 :: cur.drop (d + 1) := by
  conv_lhs => rw [← take_append_drop (d + 1) cur, take_succ_getD hd, append_assoc]
  rfl

section Way

variable {t : Mpt} {cur : Nibbles} {value : Bytes}

theorem sub_concat (t : Mpt) (front : Nibbles) (x : Fin 16) :
    t.sub (front ++ [x]) = (t.sub front).child x :=
  Patricia.sub_append t front [x]

theorem sub_take_succ (t : Mpt) (hd : d < cur.length) :
    t.sub (cur.take (d + 1)) = (t.sub (cur.take d)).child (cur.getD d 0) := by
  rw [take_succ_getD hd, sub_concat]

variable (ht : t.WF) (hkey : t.lookup cur = some value)

include ht hkey

/-- The key goes on below every prefix of it. -/
theorem lookup_take (d : ℕ) :
    (t.sub (cur.take d)).lookup (cur.drop d) = some value := by
  rw [← Patricia.lookup_sub ht, take_append_drop]
  exact hkey

theorem sub_take_ne_empty (d : ℕ) :
    t.sub (cur.take d) ≠ .empty := by
  intro hempty
  have := lookup_take ht hkey d
  rw [hempty] at this
  cases this

theorem sub_take_self : t.sub (cur.take cur.length) = .leaf [] value := by
  have := lookup_take ht hkey cur.length
  rw [drop_length] at this
  exact (ht.sub _).eq_leaf_nil this

theorem lookup_take_nil (hd : d < cur.length) : (t.sub (cur.take d)).lookup [] = none := by
  rcases hnil : (t.sub (cur.take d)).lookup [] with _ | v
  · rfl
  · have hne := sub_take_ne_empty ht hkey (d + 1)
    rw [sub_take_succ t hd, (ht.sub _).eq_leaf_nil hnil] at hne
    exact absurd rfl hne

/-- Where nothing branches off, the node at `m` is the node at `q` behind the path between them. -/
theorem sub_take_eq_pushAll (hmq : m ≤ q) (hq : q ≤ cur.length)
    (hclear : ∀ d, m ≤ d → d < q → ∀ x, x ≠ cur.getD d 0 → t.sub (cur.take d ++ [x]) = .empty) :
    t.sub (cur.take m) = Patricia.pushAll ((cur.take q).drop m) (t.sub (cur.take q)) := by
  induction q, hmq using Nat.le_induction with
  | base => rw [drop_of_length_le (by simp), Patricia.pushAll_nil]
  | succ q hmq ih =>
    have hlt : q < cur.length := hq
    have hdrop : (cur.take (q + 1)).drop m = (cur.take q).drop m ++ [cur.getD q 0] := by
      rw [take_succ_getD hlt, drop_append_of_le_length]
      rw [length_take]
      omega
    have hpush : t.sub (cur.take q) = Patricia.push (cur.getD q 0) (t.sub (cur.take (q + 1))) := by
      rw [sub_take_succ t hlt]
      refine (ht.sub _).eq_push (lookup_take_nil ht hkey hlt) fun x hx => ?_
      rw [← sub_concat]
      exact hclear q hmq (Nat.lt_succ_self q) x hx
    rw [ih (by omega) fun d hd hdq => hclear d hd (Nat.lt_succ_of_lt hdq), hdrop, hpush,
      Patricia.pushAll_append]
    rfl

end Way

/-! ## The part of the trie to the left of a key -/

section Left

variable (keccak256 : Bytes → Bytes32) (t : Mpt) (cur : Nibbles)

/-- The digits at depth `d`, smaller than that of the key, with keys behind them. -/
def leftDigits (d : ℕ) : List (Fin 16) :=
  (finRange 16).filter fun x => x < cur.getD d 0 && !(t.sub (cur.take d ++ [x])).isEmpty

/-- The references that wait for the branches on the way to a key, down to depth `q`. -/
def leftStack : (q : ℕ) → List Bytes
  | 0 => []
  | d + 1 =>
    ((leftDigits t cur d).map fun x => mptRef keccak256 (t.sub (cur.take d ++ [x]))).reverse ++
      leftStack d

/-- `groups` has the digits that branch off to the left above depth `q`, and no empty group last. -/
structure LeftGroups (q : ℕ) (groups : List (BitVec 16)) : Prop where
  digits : ∀ d (x : Fin 16), (groups.getD d 0).getLsbD x.val = decide (d < q ∧ x ∈ leftDigits t cur d)
  last : groups ≠ [] → groups.getD (groups.length - 1) 0 ≠ 0

variable {keccak256 t cur}

/-- A digit is left of the key if it is smaller and there is a key behind it. -/
theorem mem_leftDigits :
    x ∈ leftDigits t cur d ↔ x < cur.getD d 0 ∧ t.sub (cur.take d ++ [x]) ≠ .empty := by
  rw [leftDigits, mem_filter, Bool.and_eq_true, decide_eq_true_eq, Bool.not_eq_true',
    Patricia.isEmpty_false_iff]
  exact and_iff_right (mem_finRange x)

/-- Levels without a sibling on the left put nothing on the stack. -/
theorem leftStack_eq (hmq : m ≤ q) (h : ∀ d, m ≤ d → d < q → leftDigits t cur d = []) :
    leftStack keccak256 t cur q = leftStack keccak256 t cur m := by
  induction q, hmq using Nat.le_induction with
  | base => rfl
  | succ q hmq ih =>
    rw [leftStack, h q hmq (Nat.lt_succ_self q), ih fun d hd hdq => h d hd (Nat.lt_succ_of_lt hdq)]
    rfl

theorem LeftGroups.nil (h : LeftGroups t cur q []) (hd : d < q) : leftDigits t cur d = [] := by
  refine eq_nil_iff_forall_not_mem.mpr fun x hx => ?_
  have := h.digits d x
  rw [decide_eq_true (⟨hd, hx⟩ : d < q ∧ x ∈ leftDigits t cur d)] at this
  simp at this

/-- The last group is the deepest place at which something branches off. -/
theorem LeftGroups.deepest (h : LeftGroups t cur q groups) (hne : groups ≠ []) :
    groups.length - 1 < q ∧ leftDigits t cur (groups.length - 1) ≠ [] ∧
      ∀ d, groups.length - 1 < d → d < q → leftDigits t cur d = [] := by
  obtain ⟨x, hx⟩ : ∃ x : Fin 16, (groups.getD (groups.length - 1) 0).getLsbD x.val = true := by
    by_contra hall
    push Not at hall
    refine h.last hne (BitVec.eq_of_getLsbD_eq fun i hi => ?_)
    have := hall ⟨i, hi⟩
    simpa using this
  rw [h.digits, decide_eq_true_eq] at hx
  refine ⟨hx.1, ne_nil_of_mem hx.2, fun d hd hdq => eq_nil_iff_forall_not_mem.mpr fun y hy => ?_⟩
  have hy' := h.digits d y
  rw [decide_eq_true (⟨hdq, hy⟩ : d < q ∧ y ∈ leftDigits t cur d), getD_eq_getElem?_getD,
    getElem?_eq_none (by omega)] at hy'
  simp at hy'

end Left

/-! ## The succeeding key -/

section Next

variable {t : Mpt} {cur succ : Nibbles} {c : ℕ}

/-- `succ` is the next key after `cur`, from which it parts after `c` digits; or `cur` is the last
key, and `succ` is empty. -/
structure Next (t : Mpt) (cur succ : Nibbles) (c : ℕ) : Prop where
  part : succ ≠ [] → PartAt c cur succ
  zero : succ = [] → c = 0
  between : ∀ key value, t.lookup key = some value → Before cur key → succ ≠ [] ∧ ¬ Before key succ

/-- A child that is not empty has a key of the trie behind it. -/
theorem exists_key_of_sub {front : Nibbles} (ht : t.WF) (h : t.sub (front ++ [x]) ≠ .empty) :
    ∃ key value, t.lookup (front ++ x :: key) = some value := by
  obtain ⟨key, value, hk⟩ := (ht.sub _).exists_key h
  rw [← Patricia.lookup_sub ht, append_assoc] at hk
  exact ⟨key, value, hk⟩

theorem PartAt.of_getD (hd : d < a.length) (hlt : a.getD d 0 < y) :
    PartAt d a (a.take d ++ y :: b) := by
  have h := @PartAt.of_cons _ _ (a.take d) (a.drop (d + 1)) b _ _ hlt
  rwa [← take_append_getD hd, length_take_of_le hd.le] at h

theorem PartAt.of_getD' (hd : d < a.length) (hlt : y < a.getD d 0) :
    PartAt d (a.take d ++ y :: b) a := by
  have h := @PartAt.of_cons _ _ (a.take d) b (a.drop (d + 1)) _ _ hlt
  rwa [← take_append_getD hd, length_take_of_le hd.le] at h

theorem take_append_take (hd : d ≤ a.length) (b : Nibbles) : (a.take d ++ b).take d = a.take d := by
  rw [take_append_of_le_length (by rw [length_take]; omega), take_take, min_self]

/-- Nothing branches off to the right beyond the place where the next key parts. -/
theorem Next.right_empty (h : Next t cur succ c) (ht : t.WF) (hd : d < cur.length)
    (hc : succ = [] ∨ c < d) (hx : cur.getD d 0 < x) : t.sub (cur.take d ++ [x]) = .empty := by
  by_contra hne
  obtain ⟨key, value, hk⟩ := exists_key_of_sub ht hne
  have hpart : PartAt d cur (cur.take d ++ x :: key) := PartAt.of_getD hd hx
  obtain ⟨hsucc, hbetween⟩ := h.between _ value hk ⟨d, hpart⟩
  rcases hc with hnil | hlt
  · exact hsucc hnil
  · exact hbetween ⟨c, (h.part hsucc).of_take_left hlt (take_append_take hd.le _).symm⟩

/-- At that place nothing lies between the two keys. -/
theorem Next.between_empty (h : Next t cur succ c) (ht : t.WF) (hsucc : succ ≠ [])
    (hx : cur.getD c 0 < x) (hx' : x < succ.getD c 0) : t.sub (cur.take c ++ [x]) = .empty := by
  by_contra hne
  obtain ⟨key, value, hk⟩ := exists_key_of_sub ht hne
  obtain ⟨hcur, hsucclen⟩ := (h.part hsucc).lt_length
  have hpart : PartAt c cur (cur.take c ++ x :: key) := PartAt.of_getD hcur hx
  have hpart' : PartAt c (cur.take c ++ x :: key) succ := by
    rw [(h.part hsucc).1]
    exact PartAt.of_getD' hsucclen hx'
  exact (h.between _ value hk ⟨c, hpart⟩).2 ⟨c, hpart'⟩

/-- Beyond that place nothing branches off to the left of the next key. -/
theorem Next.left_empty (h : Next t cur succ c) (ht : t.WF) (hsucc : succ ≠ []) (hcd : c < d) :
    leftDigits t succ d = [] := by
  refine eq_nil_iff_forall_not_mem.mpr fun x hx => ?_
  rw [mem_leftDigits] at hx
  obtain ⟨key, value, hk⟩ := exists_key_of_sub ht hx.2
  have hd : d < succ.length := by
    by_contra hlen
    rw [getD_eq_getElem?_getD, getElem?_eq_none (Nat.not_lt.mp hlen)] at hx
    exact absurd hx.1 (Fin.not_lt_zero x)
  have hpart : PartAt d (succ.take d ++ x :: key) succ := PartAt.of_getD' hd hx.1
  have hpart' : PartAt c cur (succ.take d ++ x :: key) :=
    (h.part hsucc).of_take hcd (take_append_take hd.le _).symm
  exact (h.between _ value hk ⟨c, hpart'⟩).2 ⟨d, hpart⟩

/-- Before that place the two keys have the same to their left. -/
theorem Next.left_same (h : Next t cur succ c) (hsucc : succ ≠ []) (hd : d < c) :
    leftDigits t succ d = leftDigits t cur d := by
  have hpart := h.part hsucc
  have htake : succ.take d = cur.take d := by
    have := congrArg (List.take d) hpart.1
    rw [take_take, take_take, min_eq_left hd.le] at this
    exact this.symm
  have hget : succ.getD d 0 = cur.getD d 0 := by
    rw [getD_eq_getElem?_getD, getD_eq_getElem?_getD, hpart.getElem?_eq hd]
  rw [leftDigits, leftDigits, htake, hget]

/-- A digit behind those to its left, with nothing up to the next one. -/
theorem filter_eq_concat {a : Fin 16} {p q : Fin 16 → Bool} (ha : q a = true)
    (hp : ∀ x, p x = true ↔ x < a ∧ q x = true) (hq : ∀ x, a < x → q x = false) :
    (finRange 16).filter q = (finRange 16).filter p ++ [a] := by
  refine ((pairwise_lt_finRange 16).filter _).eq_of_mem_iff ?_ fun x => ?_
  · rw [pairwise_append]
    refine ⟨(pairwise_lt_finRange 16).filter _, pairwise_singleton _ _, fun x hx y hy => ?_⟩
    obtain rfl := mem_singleton.mp hy
    exact ((hp x).mp (mem_filter.mp hx).2).1
  · simp only [mem_append, mem_filter, mem_finRange, true_and, mem_singleton, hp]
    rcases lt_trichotomy x a with hlt | rfl | hgt
    · simp [hlt, hlt.ne]
    · simp [ha]
    · simp [hq x hgt, hgt.ne', hgt.not_gt]

/-- Where the next key parts, the digit of this key is the last on its left. -/
theorem Next.left_at (h : Next t cur succ c) (ht : t.WF) {value : Bytes}
    (hkey : t.lookup cur = some value)
    (hsucc : succ ≠ []) : leftDigits t succ c = leftDigits t cur c ++ [cur.getD c 0] := by
  have hpart := h.part hsucc
  have hlt : cur.getD c 0 < succ.getD c 0 := by
    obtain ⟨-, x, y, hx, hy, hxy⟩ := hpart
    rw [getD_eq_getElem?_getD, getD_eq_getElem?_getD, hx, hy]
    exact hxy
  have hcur : t.sub (cur.take c ++ [cur.getD c 0]) ≠ .empty := by
    rw [← take_succ_getD hpart.lt_length.1]
    exact sub_take_ne_empty ht hkey (c + 1)
  rw [leftDigits, leftDigits, ← hpart.1]
  refine @filter_eq_concat _ _ _ ?_ (fun x => ?_) fun x hx => ?_
  · rw [decide_eq_true hlt, Patricia.isEmpty_false_iff.mpr hcur]
    rfl
  · simp only [Bool.and_eq_true, decide_eq_true_eq]
    exact ⟨fun hx => ⟨hx.1, hx.1.trans hlt, hx.2⟩, fun hx => ⟨hx.1, hx.2.2⟩⟩
  · by_cases hxs : x < succ.getD c 0
    · rw [h.between_empty ht hsucc hx hxs]
      exact Bool.and_false _
    · rw [decide_eq_false hxs]
      rfl

/-- The digits of a branch on the way to a key beyond which nothing branches off to the right. -/
theorem letters_eq (ht : t.WF) {value : Bytes} (hkey : t.lookup cur = some value)
    (hd : d < cur.length) (hright : ∀ x, cur.getD d 0 < x → t.sub (cur.take d ++ [x]) = .empty) :
    ((finRange 16).filter fun x => !((t.sub (cur.take d)).child x).isEmpty) =
      leftDigits t cur d ++ [cur.getD d 0] := by
  have hcur : (t.sub (cur.take d)).child (cur.getD d 0) ≠ .empty := by
    rw [← sub_take_succ t hd]
    exact sub_take_ne_empty ht hkey (d + 1)
  refine @filter_eq_concat _ _ _ ?_ (fun x => ?_) fun x hx => ?_
  · rw [Patricia.isEmpty_false_iff.mpr hcur]
    rfl
  · rw [Bool.and_eq_true, decide_eq_true_eq, sub_concat]
  · rw [← sub_concat, hright x hx]
    rfl

end Next

/-! ## Digits as bytes -/

theorem nibbleByte_injective (h : UInt8.ofNat x.val = UInt8.ofNat y.val) : x = y := by
  have hval := congrArg UInt8.toNat h
  rw [UInt8.toNat_ofNat', UInt8.toNat_ofNat', Nat.mod_eq_of_lt (by omega),
    Nat.mod_eq_of_lt (by omega)] at hval
  exact Fin.ext hval

theorem getD_nibbleBytes (hd : d < path.length) :
    ((nibbleBytes path).getD d 0).toNat = (path.getD d 0).val := by
  rw [nibbleBytes, getD_eq_getElem?_getD, getD_eq_getElem?_getD, getElem?_map,
    getElem?_eq_getElem hd, Option.map_some, Option.getD_some, Option.getD_some, UInt8.toNat_ofNat']
  exact Nat.mod_eq_of_lt (by omega)

theorem nibbleBytes_eq_nil : nibbleBytes path = [] ↔ path = [] := map_eq_nil_iff

/-- `prefix_length` finds the place where two keys part. -/
theorem prefixLength_eq {n : ℕ} (h : PartAt n a b) :
    prefixLength (nibbleBytes b) (nibbleBytes a) = n := by
  induction n generalizing a b with
  | zero =>
    obtain ⟨-, x, y, hx, hy, hxy⟩ := h
    rcases a with _ | ⟨x', a⟩
    · cases hx
    rcases b with _ | ⟨y', b⟩
    · cases hy
    cases hx
    cases hy
    have hne : (UInt8.ofNat y.val == UInt8.ofNat x.val) = false := by
      rw [beq_eq_false_iff_ne]
      exact fun heq => hxy.ne (nibbleByte_injective heq).symm
    simp [prefixLength, nibbleBytes, hne]
  | succ n ih =>
    obtain ⟨heq, x, y, hx, hy, hxy⟩ := h
    rcases a with _ | ⟨z, a⟩
    · cases hx
    rcases b with _ | ⟨z', b⟩
    · cases hy
    rw [take_succ_cons, take_succ_cons, List.cons.injEq] at heq
    obtain ⟨rfl, heq⟩ := heq
    have := ih ⟨heq, x, y, hx, hy, hxy⟩
    simp only [prefixLength, nibbleBytes, map_cons, zip_cons_cons] at this ⊢
    rw [takeWhile_cons_of_pos (by simp), length_cons, this]

/-! ## One round -/

section Rounds

variable (keccak256 : Bytes → Bytes32) {t : Mpt} {cur succ : Nibbles} {value : Bytes} {c : ℕ}

theorem mptRef_leaf (path : Nibbles) (value : Bytes) :
    mptRef keccak256 (.leaf path value) = nodeRef keccak256 (leafNodeRlp (nibbleBytes path) value) := by
  rw [mptRef, mptNode, encodeLeaf, encodeList, leafNodeRlp, length_append, encodeBytes_length,
    encodeBytes_length, append_assoc]

theorem mptRef_ext (path : Nibbles) (below : Mpt) :
    mptRef keccak256 (.ext path below) =
      nodeRef keccak256 (extensionNodeRlp (nibbleBytes path) (mptRef keccak256 below)) := by
  rw [mptRef, mptNode, encodeList, extensionNodeRlp, length_append, encodeBytes_length, append_assoc]
  rfl

theorem pushAll_leaf (path : Nibbles) (value : Bytes) :
    Patricia.pushAll path (.leaf [] value : Mpt) = .leaf path value := by
  induction path with
  | nil => rfl
  | cons a path ih => rw [Patricia.pushAll_cons, ih, Patricia.push]

theorem pushAll_branch (hne : path ≠ []) (children : Fin 16 → Mpt) :
    Patricia.pushAll path (.branch children : Mpt) = .ext path (.branch children) := by
  induction path with
  | nil => exact absurd rfl hne
  | cons a path ih =>
    by_cases hp : path = []
    · subst hp
      rfl
    · rw [Patricia.pushAll_cons, ih hp, Patricia.push]

/-- What is on top of the stack before a round: nothing yet in the first one, for the pending leaf;
the branch closed last in the others. -/
inductive OnTop (t : Mpt) (cur : Nibbles) : (q : ℕ) → (buildExtensions : Bool) → List Bytes → Prop where
  | leaf : OnTop t cur cur.length false (leftStack keccak256 t cur cur.length)
  | branch {q : ℕ} (h : (t.sub (cur.take q)).isBranch = true) :
    OnTop t cur q true (mptRef keccak256 (t.sub (cur.take q)) :: leftStack keccak256 t cur q)

/-- The node on the way to the key is lifted from depth `q` to depth `m`. -/
theorem OnTop.lift {keccak256 : Bytes → Bytes32} {buildExtensions : Bool} {stack : List Bytes}
    (h : OnTop keccak256 t cur q buildExtensions stack) (ht : t.WF)
    (hkey : t.lookup cur = some value) (hmq : m ≤ q) (hq : q ≤ cur.length)
    (hclear : ∀ d, m ≤ d → d < q → ∀ x, x ≠ cur.getD d 0 → t.sub (cur.take d ++ [x]) = .empty) :
    (if !buildExtensions then
        nodeRef keccak256 (leafNodeRlp ((nibbleBytes (cur.take q)).drop m) value) :: stack
      else if (nibbleBytes (cur.take q)).drop m ≠ [] then
        nodeRef keccak256
          (extensionNodeRlp ((nibbleBytes (cur.take q)).drop m) (stack.headD [])) :: stack.tail
      else stack) = mptRef keccak256 (t.sub (cur.take m)) :: leftStack keccak256 t cur q := by
  have hdrop : (nibbleBytes (cur.take q)).drop m = nibbleBytes ((cur.take q).drop m) := map_drop.symm
  rw [hdrop, sub_take_eq_pushAll ht hkey hmq hq hclear]
  cases h with
  | leaf =>
    rw [if_pos (by rfl), sub_take_self ht hkey, pushAll_leaf, mptRef_leaf]
  | branch hb =>
    rw [if_neg (by simp)]
    rcases hsub : t.sub (cur.take q) with _ | _ | _ | children
    case branch =>
      by_cases hpath : (cur.take q).drop m = []
      · rw [hpath, if_neg (by simp [nibbleBytes])]
        rfl
      · rw [if_pos (by rwa [Ne, nibbleBytes_eq_nil]), pushAll_branch hpath, mptRef_ext]
        rfl
    all_goals
      rw [hsub] at hb
      cases hb

theorem getLsbD_digit (a x : Fin 16) :
    (BitVec.ofNat 16 (1 <<< a.val)).getLsbD x.val = decide (x = a) := by
  revert a x
  decide

/-- The groups after the digit of the key is set at `len`. -/
theorem LeftGroups.setDigit (h : LeftGroups t cur q groups) (hlen : len < q) (d : ℕ) (x : Fin 16) :
    ((Trie.setDigit groups len (cur.getD len 0).val).getD d 0).getLsbD x.val =
      (decide (d < q ∧ x ∈ leftDigits t cur d) || decide (d = len ∧ x = cur.getD len 0)) := by
  rw [getD_setDigit]
  by_cases hd : d = len
  · subst hd
    rw [if_pos rfl, BitVec.getLsbD_or, h.digits, getLsbD_digit]
    simp
  · rw [if_neg hd, h.digits]
    simp [hd]

/-- The digits of the branch that is closed. -/
theorem LeftGroups.closed_mask (h : LeftGroups t cur q groups) (hlen : len < q) (x : Fin 16) :
    ((Trie.setDigit groups len (cur.getD len 0).val).getD len 0).getLsbD x.val =
      decide (x ∈ leftDigits t cur len ∨ x = cur.getD len 0) := by
  rw [h.setDigit hlen, Bool.eq_iff_iff, Bool.or_eq_true, decide_eq_true_eq, decide_eq_true_eq,
    decide_eq_true_eq]
  simp only [hlen, true_and]

/-- The groups that are left when it is. -/
theorem LeftGroups.closed (h : LeftGroups t cur q groups) (hlen : len < q) :
    LeftGroups t cur len
      (popEmptyGroups ((Trie.setDigit groups len (cur.getD len 0).val).take len)) := by
  refine ⟨fun d x => ?_, last_popEmptyGroups⟩
  rw [getD_popEmptyGroups]
  by_cases hd : d < len
  · have htake : ((Trie.setDigit groups len (cur.getD len 0).val).take len).getD d 0 =
        (Trie.setDigit groups len (cur.getD len 0).val).getD d 0 := by
      rw [getD_eq_getElem?_getD, getElem?_take, if_pos hd, ← getD_eq_getElem?_getD]
    rw [htake, h.setDigit hlen]
    simp [hd, hd.ne, hd.trans hlen]
  · rw [getD_eq_getElem?_getD, getElem?_take, if_neg hd]
    simp [hd]

/-- Closing the branch at depth `d`: its last child is on top, the others below. -/
theorem close_branch (ht : t.WF) (hkey : t.lookup cur = some value) (hd : d < cur.length)
    (hright : ∀ x, cur.getD d 0 < x → t.sub (cur.take d ++ [x]) = .empty)
    (hleft : leftDigits t cur d ≠ []) {mask : BitVec 16}
    (hmask : ∀ x : Fin 16, mask.getLsbD x.val = decide (x ∈ leftDigits t cur d ∨ x = cur.getD d 0))
    :
    branchRef keccak256 mask
      (mptRef keccak256 (t.sub (cur.take (d + 1))) :: leftStack keccak256 t cur (d + 1)) =
        mptRef keccak256 (t.sub (cur.take d)) :: leftStack keccak256 t cur d ∧
      (t.sub (cur.take d)).isBranch = true := by
  have hletters := letters_eq ht hkey hd hright
  have hcur : (t.sub (cur.take d)).child (cur.getD d 0) ≠ .empty := by
    rw [← sub_take_succ t hd]
    exact sub_take_ne_empty ht hkey (d + 1)
  obtain ⟨x, hx⟩ := exists_mem_of_ne_nil _ hleft
  rw [mem_leftDigits, sub_concat] at hx
  have hbranch := (ht.sub (cur.take d)).eq_branch hx.1.ne hx.2 hcur
  have hmem : ∀ y : Fin 16, mask.getLsbD y.val = !((t.sub (cur.take d)).child y).isEmpty := by
    intro y
    have hy : (y ∈ leftDigits t cur d ∨ y = cur.getD d 0) ↔ (t.sub (cur.take d)).child y ≠ .empty := by
      rw [← Patricia.mem_letters, hletters, mem_append, mem_singleton]
    rw [hmask, Bool.eq_iff_iff, decide_eq_true_eq, hy, Bool.not_eq_true', Patricia.isEmpty_false_iff]
  have hrefs := branchRef_eq keccak256 hmem (leftStack keccak256 t cur d)
  rw [hletters, map_append, reverse_append, ← hbranch] at hrefs
  refine ⟨?_, by rw [hbranch]; rfl⟩
  rw [leftStack, sub_take_succ t hd]
  simpa only [map_cons, map_nil, reverse_singleton, singleton_append, cons_append,
    nil_append, sub_concat] using hrefs

/-- The next key goes on through the branch at depth `c`: its left part is that of the pending key,
and the pending key's own digit. -/
theorem Next.open_branch (hnext : Next t cur succ c) (ht : t.WF) (hkey : t.lookup cur = some value)
    (hsucc : succ ≠ []) (hgroups : LeftGroups t cur q groups) (hcq : c < q)
    (hle : groups.length ≤ c + 1) (hnone : ∀ d, c < d → d < q → leftDigits t cur d = []) :
    LeftGroups t succ succ.length (setDigit groups c (cur.getD c 0).val) ∧
      mptRef keccak256 (t.sub (cur.take (c + 1))) :: leftStack keccak256 t cur (c + 1) =
        leftStack keccak256 t succ succ.length := by
  obtain ⟨hcur, hslen⟩ := (hnext.part hsucc).lt_length
  have hat := hnext.left_at ht hkey hsucc
  have hsame : ∀ n ≤ c, leftStack keccak256 t cur n = leftStack keccak256 t succ n := by
    intro n hn
    induction n with
    | zero => rfl
    | succ n ih =>
      have htake : succ.take n = cur.take n := by
        have := congrArg (List.take n) (hnext.part hsucc).1
        rw [take_take, take_take, min_eq_left (by omega)] at this
        exact this.symm
      rw [leftStack, leftStack, hnext.left_same hsucc hn, htake, ih (by omega)]
  constructor
  · constructor
    · intro d x
      rw [hgroups.setDigit hcq, Bool.eq_iff_iff, Bool.or_eq_true, decide_eq_true_eq, decide_eq_true_eq,
        decide_eq_true_eq]
      rcases lt_trichotomy d c with hd | rfl | hd
      · rw [hnext.left_same hsucc hd]
        simp [hd.ne, hd.trans hcq, hd.trans hslen]
      · rw [hat, mem_append, mem_singleton]
        simp [hcq, hslen]
      · rw [hnext.left_empty ht hsucc hd]
        simp only [hd.ne', false_and, or_false, not_mem_nil, and_false, iff_false, not_and]
        intro hdq
        rw [hnone d hd hdq]
        exact not_mem_nil
    · intro hne hzero
      rw [length_setDigit, max_eq_right hle, Nat.add_sub_cancel] at hzero
      have hbit := hgroups.setDigit hcq c (cur.getD c 0)
      rw [hzero] at hbit
      simp at hbit
  · rw [leftStack_eq hslen fun d hd _ => hnext.left_empty ht hsucc hd, leftStack, leftStack, hat,
      hsame c le_rfl, map_append, reverse_append, ← (hnext.part hsucc).1, take_succ_getD hcur]
    rfl

/-- **`gen_struct_step`.**  From the left part of the trie at the pending key to that at the next
key, or to the whole trie behind the last one. -/
theorem genStructStep_spec (hnext : Next t cur succ c) (ht : t.WF)
    (hkey : t.lookup cur = some value) {fuel : ℕ} {buildExtensions : Bool} {stack : List Bytes}
    (hq0 : 0 < q) (hq : q ≤ cur.length) (hfuel : q < fuel) (hc : succ ≠ [] → c < q)
    (hgroups : LeftGroups t cur q groups) (hstack : OnTop keccak256 t cur q buildExtensions stack) :
    if succ = [] then
      (genStructStep keccak256 value fuel buildExtensions (nibbleBytes (cur.take q)) (nibbleBytes succ)
        (groups, stack)).2 = [mptRef keccak256 t]
    else
      LeftGroups t succ succ.length (genStructStep keccak256 value fuel buildExtensions
          (nibbleBytes (cur.take q)) (nibbleBytes succ) (groups, stack)).1 ∧
        (genStructStep keccak256 value fuel buildExtensions (nibbleBytes (cur.take q)) (nibbleBytes succ)
          (groups, stack)).2 = leftStack keccak256 t succ succ.length := by
  induction fuel generalizing q buildExtensions groups stack with
  | zero => omega
  | succ fuel ih =>
    have hprefix : prefixLength (nibbleBytes succ) (nibbleBytes (cur.take q)) = c := by
      by_cases hs : succ = []
      · rw [hnext.zero hs, hs]
        rfl
      · exact prefixLength_eq ((hnext.part hs).of_take_left (hc hs) (by rw [take_take, min_self]))
    have hP : groups.length - 1 < q := by
      by_cases hg : groups = []
      · rw [hg]
        exact hq0
      · exact (hgroups.deepest hg).1
    have hcq : c < q := by
      by_cases hs : succ = []
      · rw [hnext.zero hs]
        exact hq0
      · exact hc hs
    have hnoleft : ∀ d, (groups ≠ [] → groups.length - 1 < d) → d < q → leftDigits t cur d = [] := by
      intro d hd hdq
      by_cases hg : groups = []
      · subst hg
        exact hgroups.nil hdq
      · exact (hgroups.deepest hg).2.2 d (hd hg) hdq
    have hclear : ∀ d, (groups ≠ [] → groups.length - 1 < d) → succ = [] ∨ c < d → d < q →
        ∀ x, x ≠ cur.getD d 0 → t.sub (cur.take d ++ [x]) = .empty := by
      intro d hleft hright hdq x hx
      rcases lt_or_gt_of_ne hx with hlt | hgt
      · by_contra hne
        have := mem_leftDigits.mpr ⟨hlt, hne⟩
        rw [hnoleft d hleft hdq] at this
        exact not_mem_nil this
      · exact hnext.right_empty ht (by omega) hright hgt
    have hdigit : ∀ d < q, ((nibbleBytes (cur.take q)).getD d 0).toNat = (cur.getD d 0).val := by
      intro d hd
      have htake : (cur.take q).getD d 0 = cur.getD d 0 := by
        rw [getD_eq_getElem?_getD, getD_eq_getElem?_getD, getElem?_take, if_pos hd]
      rw [getD_nibbleBytes (by rw [length_take]; omega), htake]
    by_cases hsingle : succ ≠ [] ∨ groups ≠ []
    · set len := max (groups.length - 1) c with hlen
      have hlenq : len < q := max_lt hP hcq
      have hnone : ∀ d, len < d → d < q → leftDigits t cur d = [] := fun d hd =>
        hnoleft d fun _ => (le_max_left _ c).trans_lt hd
      have hlift := hstack.lift ht hkey (show len + 1 ≤ q from hlenq) hq fun d hd hdq =>
        hclear d (fun _ => (le_max_left _ c).trans_lt hd) (.inr ((le_max_right _ c).trans_lt hd)) hdq
      rw [leftStack_eq hlenq fun d hd => hnone d hd] at hlift
      have hround : genStructStep keccak256 value (fuel + 1) buildExtensions (nibbleBytes (cur.take q))
          (nibbleBytes succ) (groups, stack) =
          if groups.length - 1 ≤ c ∧ succ ≠ [] then
            (setDigit groups len (cur.getD len 0).val,
              mptRef keccak256 (t.sub (cur.take (len + 1))) :: leftStack keccak256 t cur (len + 1))
          else
            let stack := branchRef keccak256 ((setDigit groups len (cur.getD len 0).val).getD len 0)
              (mptRef keccak256 (t.sub (cur.take (len + 1))) :: leftStack keccak256 t cur (len + 1))
            let groups' := (setDigit groups len (cur.getD len 0).val).take len
            if groups.length - 1 = 0 then (groups', stack)
            else genStructStep keccak256 value fuel true (nibbleBytes (cur.take (groups.length - 1)))
              (nibbleBytes succ) (popEmptyGroups groups', stack) := by
        have htake : (nibbleBytes (cur.take q)).take (groups.length - 1) =
            nibbleBytes (cur.take (groups.length - 1)) := by
          rw [nibbleBytes, ← map_take, take_take, min_eq_left hP.le]
          rfl
        rw [genStructStep, hprefix]
        simp only [nibbleBytes_eq_nil.not, if_pos hsingle, ← hlen, hdigit len hlenq, hlift, htake]
      rw [hround]
      by_cases hgoes : groups.length - 1 ≤ c ∧ succ ≠ []
      · -- the next key goes on through the branch at the place where it parts
        have hlc : len = c := max_eq_right hgoes.1
        rw [hlc] at hnone ⊢
        rw [if_neg hgoes.2, if_pos hgoes]
        exact hnext.open_branch keccak256 ht hkey hgoes.2 hgroups hcq (by omega) hnone
      · -- the branch at the deepest open place is closed
        have hg : groups ≠ [] := by
          rintro rfl
          exact hgoes ⟨Nat.zero_le c, hsingle.resolve_right fun h => h rfl⟩
        have hclosed : succ = [] ∨ c < groups.length - 1 := by
          by_cases hs : succ = []
          · exact .inl hs
          · exact .inr (Nat.lt_of_not_le fun h => hgoes ⟨h, hs⟩)
        have hlP : len = groups.length - 1 := by
          refine max_eq_left ?_
          rcases hclosed with hs | hlt
          · rw [hnext.zero hs]
            exact Nat.zero_le _
          · exact hlt.le
        obtain ⟨hdone, hbranch⟩ := close_branch keccak256 ht hkey (d := len) (by omega)
          (fun x => hnext.right_empty ht (by omega) (hlP ▸ hclosed))
          (hlP ▸ (hgroups.deepest hg).2.1) (hgroups.closed_mask hlenq)
        rw [if_neg hgoes]
        simp only [hdone, ← hlP]
        by_cases hzero : len = 0
        · have hs : succ = [] := hclosed.resolve_right (by omega)
          rw [if_pos hs, if_pos hzero, hzero]
          rfl
        · rw [if_neg hzero]
          exact ih (Nat.pos_of_ne_zero hzero) (by omega) (by omega)
            (fun hs => hlP ▸ hclosed.resolve_left hs) (hgroups.closed hlenq) (.branch hbranch)
    · rw [genStructStep, hprefix]
      simp only [nibbleBytes_eq_nil.not]
      -- a single leaf or branch, with no other key beside it
      push Not at hsingle
      obtain ⟨rfl, rfl⟩ := hsingle
      have hc0 := hnext.zero rfl
      subst hc0
      have hall : ∀ d < q, leftDigits t cur d = [] := fun d hd => hgroups.nil hd
      have hlift := hstack.lift ht hkey (Nat.zero_le q) hq
        fun d _ hdq => hclear d (fun h => absurd rfl h) (.inl rfl) hdq
      simp only [ne_eq, not_true_eq_false, or_self, if_false, length_nil, Nat.zero_sub, max_self,
        and_false, if_true] at hlift ⊢
      rw [hlift, leftStack_eq (Nat.zero_le q) fun d _ hd => hall d hd]
      rfl

end Rounds

/-! ## The builder -/

section Builder

variable (keccak256 : Bytes → Bytes32) {t : Mpt} {cur succ : Nibbles} {value : Bytes} {c : ℕ}
  {hb : HashBuilder}

/-- The builder with a pending leaf, and the part of the trie to its left. -/
structure Pending (t : Mpt) (cur : Nibbles) (value : Bytes) (hb : HashBuilder) : Prop where
  key : hb.key = nibbleBytes cur
  value : hb.value = value
  groups : LeftGroups t cur cur.length hb.groups
  stack : hb.stack = leftStack keccak256 t cur cur.length

variable {keccak256}

/-- The first key: nothing is to its left. -/
theorem Pending.first (ht : t.WF) (hfirst : ∀ key v, t.lookup key = some v → ¬ Before key cur)
    (value : Bytes) :
    Pending keccak256 t cur value (({} : HashBuilder).addLeaf keccak256 (nibbleBytes cur) value) := by
  have hnone : ∀ d < cur.length, leftDigits t cur d = [] := by
    intro d hd
    refine eq_nil_iff_forall_not_mem.mpr fun x hx => ?_
    rw [mem_leftDigits] at hx
    obtain ⟨key, v, hk⟩ := exists_key_of_sub ht hx.2
    exact hfirst _ v hk ⟨d, PartAt.of_getD' hd hx.1⟩
  refine ⟨rfl, rfl, ⟨fun d x => ?_, fun h => absurd rfl h⟩, ?_⟩
  · have hnot : ¬ (d < cur.length ∧ x ∈ leftDigits t cur d) := by
      rintro ⟨hd, hx⟩
      rw [hnone d hd] at hx
      exact not_mem_nil hx
    rw [decide_eq_false hnot]
    exact BitVec.getLsbD_zero
  · rw [leftStack_eq (Nat.zero_le _) fun d _ hd => hnone d hd]
    rfl

theorem Pending.step_eq (h : Pending keccak256 t cur value hb) (succeeding : Bytes) :
    ((hb.step keccak256 succeeding).groups, (hb.step keccak256 succeeding).stack) =
      genStructStep keccak256 value (cur.length + 1) false (nibbleBytes (cur.take cur.length)) succeeding
        (hb.groups, leftStack keccak256 t cur cur.length) := by
  have hlen : (nibbleBytes cur).length = cur.length := length_map _
  rw [HashBuilder.step, h.key, h.value, h.stack, hlen, List.take_length]

/-- **Adding a leaf.** -/
theorem Pending.addLeaf (h : Pending keccak256 t cur value hb) (hnext : Next t cur succ c) (ht : t.WF)
    (hkey : t.lookup cur = some value) (hsucc : succ ≠ []) (value' : Bytes) :
    Pending keccak256 t succ value' (hb.addLeaf keccak256 (nibbleBytes succ) value') := by
  have hlt := (hnext.part hsucc).lt_length.1
  have hspec :=
    genStructStep_spec keccak256 hnext ht hkey (Nat.zero_lt_of_lt hlt) le_rfl (Nat.lt_succ_self _)
    (fun _ => hlt) h.groups .leaf
  rw [if_neg hsucc, ← h.step_eq (nibbleBytes succ)] at hspec
  have hne : hb.key ≠ [] := by
    rw [h.key, Ne, nibbleBytes_eq_nil]
    rintro rfl
    exact absurd hlt (Nat.not_lt_zero c)
  rw [HashBuilder.addLeaf, if_pos hne]
  exact ⟨rfl, rfl, hspec.1, hspec.2⟩

/-- **Behind the last leaf.** -/
theorem Pending.finalize (h : Pending keccak256 t cur value hb) (hnext : Next t cur [] 0) (ht : t.WF)
    (hkey : t.lookup cur = some value) (hcur : cur ≠ []) :
    (hb.finalize keccak256).stack = [mptRef keccak256 t] := by
  have hspec := genStructStep_spec keccak256 hnext ht hkey (length_pos_iff.mpr hcur) le_rfl
    (Nat.lt_succ_self _) (fun h => absurd rfl h) h.groups .leaf
  rw [if_pos rfl, ← h.step_eq (nibbleBytes [])] at hspec
  have hne : hb.key ≠ [] := by
    rw [h.key, Ne, nibbleBytes_eq_nil]
    exact hcur
  rw [HashBuilder.finalize, if_pos hne]
  exact hspec

theorem length_wrapHash (hash : Bytes32) : (wrapHash hash).length = 33 := by
  rw [wrapHash, length_cons, hash.property]

/-- The root from the reference to the trie. -/
theorem rootHash_of_stack (hstack : (hb.finalize keccak256).stack = [mptRef keccak256 t])
    (ht : t ≠ .empty) :
    hb.rootHash keccak256 = mptRoot keccak256 t := by
  rw [HashBuilder.rootHash, hstack, mptRoot, Patricia.isEmpty_false_iff.mpr ht,
    if_neg Bool.false_ne_true]
  by_cases hshort : (mptNode keccak256 t).length < 32
  · have href : mptRef keccak256 t = mptNode keccak256 t := by rw [mptRef, nodeRef, if_pos hshort]
    simp only [href]
    rw [if_neg (by omega)]
  · have href : mptRef keccak256 t = wrapHash (keccak256 (mptNode keccak256 t)) := by
      rw [mptRef, nodeRef, if_neg hshort]
    simp only [href]
    rw [if_pos (length_wrapHash _), wrapHash, tail_cons, FixedBytes.load_self]

/-- The leaves from a pending one on. -/
theorem Pending.run {leaves : List (Nibbles × Bytes)} (h : Pending keccak256 t cur value hb) (ht : t.WF)
    (hcur : cur ≠ []) (hsorted : ((cur, value) :: leaves).Pairwise fun a b => Before a.1 b.1)
    (hmem : ∀ l ∈ (cur, value) :: leaves, t.lookup l.1 = some l.2)
    (hall : ∀ key v, t.lookup key = some v → Before cur key → (key, v) ∈ leaves) :
    (leaves.foldl (fun hb l => hb.addLeaf keccak256 (nibbleBytes l.1) l.2) hb).rootHash keccak256 =
      mptRoot keccak256 t := by
  have hkey := hmem _ mem_cons_self
  induction leaves generalizing cur value hb with
  | nil =>
    have hnext : Next t cur [] 0 :=
      ⟨fun h => absurd rfl h, fun _ => rfl, fun key v hk hb => absurd (hall key v hk hb) not_mem_nil⟩
    refine rootHash_of_stack (h.finalize hnext ht hkey hcur) ?_
    rintro rfl
    cases hkey
  | cons l leaves ih =>
    obtain ⟨succ, value'⟩ := l
    obtain ⟨hfirst, htail⟩ := pairwise_cons.mp hsorted
    obtain ⟨hsecond, -⟩ := pairwise_cons.mp htail
    obtain ⟨c, hpart⟩ : Before cur succ := hfirst _ mem_cons_self
    have hsucc : succ ≠ [] := by
      rintro rfl
      exact absurd hpart.lt_length.2 (Nat.not_lt_zero c)
    have hnext : Next t cur succ c := by
      refine ⟨fun _ => hpart, fun h => absurd h hsucc, fun key v hk hb => ⟨hsucc, fun hbefore => ?_⟩⟩
      rcases mem_cons.mp (hall key v hk hb) with heq | hin
      · cases heq
        exact hbefore.asymm hbefore
      · exact hbefore.asymm (hsecond _ hin)
    refine ih (h.addLeaf hnext ht hkey hsucc value') hsucc htail
      (fun l hl => hmem l (mem_cons_of_mem _ hl))
      (fun key v hk hb => ?_) (hmem _ (mem_cons_of_mem _ mem_cons_self))
    have hin := hall key v hk (Before.trans ⟨c, hpart⟩ hb)
    rcases mem_cons.mp hin with heq | hin
    · cases heq
      exact absurd hb fun h => h.asymm h
    · exact hin

end Builder

end Zilkworm.Trie
