/-
# The search for a slot

`core/state_zz/direct_state.cpp`: `find_slot` halves an array of slots with strictly ascending keys.
Its position is that of the last probe that moved left, so it keeps only whether that probe met the
key.  One variant compares keys with `memcmp`, the other, for 32-bit guests, by words as
`lt_bytes32` does.

For every array, sorted or not, both loops end where `lowerBound` ends, with the comparison of that
very slot (`searchFrom_eq`).
-/
import Zilkworm.State.Account
import Zilkworm.Types.BytesCmp

namespace Zilkworm.State

open List Lib Rlp Zilkworm.Types

variable {slots : List Slot}

/-! ## The model -/

/-- The loop of `find_slot`: `equal` is the result of the last comparison that moved left. -/
def searchFrom (below equal : ℕ → Bool) : (fuel first len : ℕ) → (eq : Bool) → Option ℕ
  | 0, first, _, eq => if eq then some first else none
  | fuel + 1, first, len, eq =>
    if len = 0 then if eq then some first else none
    else
      let half := len / 2
      let mid := first + half
      if below mid then searchFrom below equal fuel (mid + 1) (len - half - 1) eq
      else searchFrom below equal fuel first half (equal mid)

/-- `find_slot` with `memcmp`. -/
def findSlotMemcmp (slots : List Slot) (key : Bytes32) : Option ℕ :=
  searchFrom (fun i => (slots[i]?.map fun s => decide (s.key.val < key.val)).getD false)
    (fun i => (slots[i]?.map fun s => decide (s.key = key)).getD false) slots.length 0 slots.length false

/-- `find_slot` by words. -/
def findSlotWords (slots : List Slot) (key : Bytes32) : Option ℕ :=
  searchFrom (fun i => (slots[i]?.map fun s => ltBytes32 s.key key).getD false)
    (fun i => (slots[i]?.map fun s => decide (differingWords s.key key 0 8 = none)).getD false)
    slots.length 0 slots.length
    false

/-! ## The loop -/

/-- **The loop ends where `lowerBound` ends**, with the comparison of the slot there. -/
theorem searchFrom_eq {below equal : ℕ → Bool} {fuel first len n : ℕ} {eq : Bool} (hf : len ≤ fuel)
    (hn : first + len ≤ n)
    (heq : eq = (decide (first + len < n) && equal (first + len))) :
    searchFrom below equal fuel first len eq =
      if lowerBound below fuel first len < n ∧ equal (lowerBound below fuel first len) then
        some (lowerBound below fuel first len) else none := by
  -- what is known is that `eq` belongs to the slot just after the range
  induction fuel generalizing first len eq with
  | zero =>
    obtain rfl : len = 0 := by omega
    rw [searchFrom, lowerBound, heq, Nat.add_zero]
    simp
  | succ fuel ih =>
    rw [searchFrom, lowerBound]
    rcases Nat.eq_zero_or_pos len with rfl | hpos
    · rw [if_pos rfl, if_pos rfl, heq, Nat.add_zero]
      simp
    · rw [if_neg hpos.ne', if_neg hpos.ne']
      by_cases hmid : below (first + len / 2) = true
      · rw [if_pos hmid, if_pos hmid]
        refine ih (by omega) (by omega) ?_
        rw [heq, show first + len / 2 + 1 + (len - len / 2 - 1) = first + len by omega]
      · rw [if_neg hmid, if_neg hmid]
        refine ih (by omega) (by omega) ?_
        rw [decide_eq_true (by omega), Bool.true_and]

/-- The two loops are the search of `findSlot`, on every array. -/
theorem findSlotMemcmp_eq (slots : List Slot) (key : Bytes32) :
    findSlotMemcmp slots key = findSlot slots key := by
  rw [findSlotMemcmp, searchFrom_eq (n := slots.length) le_rfl (by omega) (by simp), findSlot]
  generalize lowerBound _ slots.length 0 slots.length = i
  rcases Nat.lt_or_ge i slots.length with hi | hi
  · rw [getElem?_eq_getElem hi]
    simp [hi]
  · rw [getElem?_eq_none hi]
    simp

/-! ## The variant by words -/

theorem findSlotWords_eq (slots : List Slot) (key : Bytes32) :
    findSlotWords slots key = findSlot slots key := by
  rw [← findSlotMemcmp_eq, findSlotWords, findSlotMemcmp]
  have hbelow (s : Slot) : ltBytes32 s.key key = decide (s.key.val < key.val) := by
    rw [Bool.eq_iff_iff, ltBytes32_iff, decide_eq_true_iff]
  simp only [hbelow, differingWords_eq_none]

/-! ## Both variants -/

theorem key_of_findSlot {key : Bytes32} {i : ℕ} (h : findSlot slots key = some i) :
    ∃ s, slots[i]? = some s ∧ s.key = key := by
  simp only [findSlot] at h
  split at h
  · rename_i s hs
    split_ifs at h with hkey
    cases h
    exact ⟨s, hs, hkey⟩
  · cases h

/-- **Ascending keys are distinct.** -/
theorem index_of_key (hs : slots.Pairwise fun x y => x.key.val < y.key.val) {i j : ℕ} {x y : Slot}
    (hx : slots[i]? = some x) (hy : slots[j]? = some y) (hkey : x.key = y.key) : i = j := by
  have hlt := pairwise_iff_getElem.mp hs
  obtain ⟨hi, rfl⟩ := List.getElem?_eq_some_iff.mp hx
  obtain ⟨hj, rfl⟩ := List.getElem?_eq_some_iff.mp hy
  rcases Nat.lt_trichotomy i j with h | h | h
  · have := hlt i j hi hj h
    rw [hkey] at this
    exact absurd this Std.lt_irrefl
  · exact h
  · have := hlt j i hj hi h
    rw [hkey] at this
    exact absurd this Std.lt_irrefl

theorem findSlot_eq_some_iff (hs : slots.Pairwise fun x y => x.key.val < y.key.val) (key : Bytes32)
    (i : ℕ) : findSlot slots key = some i ↔ ∃ s, slots[i]? = some s ∧ s.key = key := by
  refine ⟨key_of_findSlot, ?_⟩
  rintro ⟨s, hi, hkey⟩
  have hfind := findSlot_spec hs key
  cases hslot : findSlot slots key with
  | none =>
    rw [hslot, Option.bind_none, eq_comm, find?_eq_none] at hfind
    exact absurd (decide_eq_true hkey) (hfind s (mem_of_getElem? hi))
  | some j =>
    obtain ⟨t, hj, htkey⟩ := key_of_findSlot hslot
    rw [index_of_key hs hj hi (htkey.trans hkey.symm)]

/-- **Both variants of `find_slot` find the slot with the key**: the index they return is the one
slot that holds the key, and they return null exactly when no slot does; `lt_bytes32` orders as
`memcmp`. -/
theorem slotSearch_correct {slots : List Slot}
    (hs : slots.Pairwise fun x y => x.key.val < y.key.val) (key : Bytes32) :
    (∀ find ∈ [findSlotMemcmp, findSlotWords],
      (∀ i, find slots key = some i ↔ ∃ s, slots[i]? = some s ∧ s.key = key) ∧
        (find slots key = none ↔ ∀ s ∈ slots, s.key ≠ key)) ∧
      ∀ a b : Bytes32, ltBytes32 a b = true ↔ a.val < b.val := by
  have hsome := findSlot_eq_some_iff hs key
  have hnone : findSlot slots key = none ↔ ∀ s ∈ slots, s.key ≠ key := by
    rw [Option.eq_none_iff_forall_ne_some]
    constructor
    · intro h s hmem hkey
      obtain ⟨i, hi⟩ := mem_iff_getElem?.mp hmem
      exact h i ((hsome i).mpr ⟨s, hi, hkey⟩)
    · intro h i hi
      obtain ⟨s, hs, hkey⟩ := (hsome i).mp hi
      exact h s (mem_of_getElem? hs) hkey
  refine ⟨fun find hfind => ?_, ltBytes32_iff⟩
  have heq : find slots key = findSlot slots key := by
    rcases mem_pair.mp hfind with rfl | rfl
    · exact findSlotMemcmp_eq slots key
    · exact findSlotWords_eq slots key
  rw [heq]
  exact ⟨hsome, hnone⟩

/-- A slot whose key is byte `k`, zeros and a one. -/
def slotOfKey (k : ℕ) : Slot :=
  ⟨FixedBytes.load 32 (k.toUInt8 :: replicate 30 0 ++ [1]), FixedBytes.zero 32, FixedBytes.zero 32⟩

theorem slotSearch_correct_three :
    findSlotWords [slotOfKey 1, slotOfKey 2, slotOfKey 5] (slotOfKey 2).key = some 1 ∧
      findSlotMemcmp [slotOfKey 1, slotOfKey 2, slotOfKey 5] (slotOfKey 3).key = none := by
  have h := fun key => (slotSearch_correct (by decide : [slotOfKey 1, slotOfKey 2,
    slotOfKey 5].Pairwise fun x y => x.key.val < y.key.val) key).1
  refine ⟨((h _ findSlotWords (by simp)).1 1).mpr ⟨slotOfKey 2, rfl, rfl⟩,
    (h _ findSlotMemcmp (by simp)).2.mpr ?_⟩
  decide

end Zilkworm.State
