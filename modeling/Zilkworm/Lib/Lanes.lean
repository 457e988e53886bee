/-
# The bytes of a word as lanes

A word of `k` bytes is used as `k` counters of one byte each.  Bitwise operations act on each lane
alone, and so does an addition in which no lane overflows (`byteOf_add`).
-/
import Zilkworm.Lib.Words
import Mathlib.Tactic.IntervalCases

namespace Zilkworm.Lib

open List

variable {k : ℕ}

theorem byteOf_and (x y : BitVec (8 * k)) (j : ℕ) : byteOf (x &&& y) j = byteOf x j &&& byteOf y j := by
  refine byte_ext fun i hi => ?_
  rw [testBit_byteOf _ _ hi, BitVec.getLsbD_and, UInt8.toNat_and, Nat.testBit_and, testBit_byteOf _ _ hi,
    testBit_byteOf _ _ hi]

theorem byteOf_or (x y : BitVec (8 * k)) (j : ℕ) : byteOf (x ||| y) j = byteOf x j ||| byteOf y j := by
  refine byte_ext fun i hi => ?_
  rw [testBit_byteOf _ _ hi, BitVec.getLsbD_or, UInt8.toNat_or, Nat.testBit_or, testBit_byteOf _ _ hi,
    testBit_byteOf _ _ hi]

/-- A shift by one lane. -/
theorem byteOf_shiftLane (x : BitVec (8 * k)) (j : ℕ) : byteOf (x >>> 8) j = byteOf x (j + 1) := by
  refine byte_ext fun i hi => ?_
  rw [testBit_byteOf _ _ hi, BitVec.getLsbD_ushiftRight, testBit_byteOf _ _ hi]
  congr 1
  omega

/-- Where no lane has a bit but its top one, a shift by seven moves each top bit to the bottom. -/
theorem byteOf_shiftTop {x : BitVec (8 * k)} (h : ∀ j < k, byteOf x j = 0 ∨ byteOf x j = 0x80)
    {j : ℕ} (hj : j < k) :
    byteOf (x >>> 7) j = if byteOf x j = 0 then 0 else 1 := by
  have hbit (t i : ℕ) (hi : i < 7) : x.getLsbD (8 * t + i) = false := by
    rcases Nat.lt_or_ge t k with ht | ht
    · rw [← testBit_byteOf _ _ (by omega)]
      rcases h t ht with h0 | h0 <;> rw [h0] <;> interval_cases i <;> rfl
    · exact BitVec.getLsbD_of_ge _ _ (by omega)
  refine byte_ext fun i hi => ?_
  rw [testBit_byteOf _ _ hi, BitVec.getLsbD_ushiftRight]
  rcases Nat.eq_zero_or_pos i with rfl | hpos
  · rw [show 7 + (8 * j + 0) = 8 * j + 7 by omega, ← testBit_byteOf _ _ (by omega)]
    rcases h j hj with h0 | h0 <;> rw [h0] <;> rfl
  · rw [show 7 + (8 * j + i) = 8 * (j + 1) + (i - 1) by omega, hbit (j + 1) (i - 1) (by omega)]
    rcases h j hj with h0 | h0 <;> rw [h0] <;> interval_cases i <;> rfl

theorem leNat_map_add {ι : Type} {l : List ι} {f g : ι → UInt8}
    (h : ∀ i ∈ l, (f i).toNat + (g i).toNat < 256) :
    leNat (l.map fun i => f i + g i) = leNat (l.map f) + leNat (l.map g) := by
  induction l with
  | nil => rfl
  | cons a l ih =>
    have hsum : (f a + g a).toNat = (f a).toNat + (g a).toNat := by
      rw [UInt8.toNat_add, Nat.mod_eq_of_lt (h a mem_cons_self)]
    rw [map_cons, map_cons, map_cons, leNat, leNat, leNat, hsum,
      ih fun i hi => h i (mem_cons_of_mem _ hi)]
    omega

theorem toNat_eq_leNat (x : BitVec (8 * k)) : x.toNat = leNat ((range k).map (byteOf x)) := by
  have hword : x = wordOf k ((range k).map (byteOf x)) := by
    refine eq_of_byteOf fun j hj => ?_
    rw [byteOf_wordOf (by simp) (by simpa using hj), getElem_map, getElem_range]
  conv_lhs => rw [hword]
  exact toNat_wordOf (by simp)

/-- **Lanes add on their own** as long as none overflows. -/
theorem byteOf_add {x y : BitVec (8 * k)}
    (h : ∀ j < k, (byteOf x j).toNat + (byteOf y j).toNat < 256) {j : ℕ}
    (hj : j < k) : byteOf (x + y) j = byteOf x j + byteOf y j := by
  have hsum : x + y = wordOf k ((range k).map fun i => byteOf x i + byteOf y i) := by
    refine BitVec.eq_of_toNat_eq ?_
    have hlt := leNat_lt ((range k).map fun i => byteOf x i + byteOf y i)
    rw [length_map, length_range] at hlt
    rw [toNat_wordOf (by simp), BitVec.toNat_add, toNat_eq_leNat x, toNat_eq_leNat y,
      ← leNat_map_add fun i hi => h i (mem_range.mp hi), Nat.pow_mul, Nat.mod_eq_of_lt hlt]
  rw [hsum, byteOf_wordOf (by simp) (by simpa using hj), getElem_map, getElem_range]

end Zilkworm.Lib
