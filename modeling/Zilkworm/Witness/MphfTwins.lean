/-
# Keys that no displacement tells apart

The slot of a key is read off the low half of `mix64_body (z + d)`.  Three bits of the sum
(3, 33 and 63) change the hash only above its low half, so that two sums that differ in
them get one slot.  Among eight keys `z + 8 i + 2^33 j` and
`z + 8 (i + 1) + 2^33 (j + 1) + 2^63`, with `i` and `j` zero or one, there are two such for
every displacement (`slot_twins`), and a bucket that holds the eight can not be placed.
-/
import Zilkworm.Witness.MphfMap
import Mathlib.Algebra.Order.Ring.Nat

namespace Zilkworm.Witness

open Lib

/-! ## Twins -/

/-- The bits of a sum that its slot does not depend on. -/
def twinMask : UInt64 := 0x8000000200000008

theorem and_bit_eq_zero {a : UInt64} {p : ℕ} (hp : p < 64) (h : a.toNat.testBit p = false) :
    a &&& UInt64.ofNat (2 ^ p) = 0 := by
  apply UInt64.toNat_inj.mp
  have hlt : 2 ^ p < 2 ^ 64 := Nat.pow_lt_pow_right (by decide) hp
  rw [UInt64.toNat_and, UInt64.toNat_ofNat', Nat.mod_eq_of_lt hlt]
  refine Nat.eq_of_testBit_eq fun i => ?_
  rw [Nat.testBit_and, Nat.testBit_two_pow]
  by_cases hi : p = i
  · simp [← hi, h]
  · simp [hi]

theorem add_eq_xor_of_and {a b : UInt64} (h : a &&& b = 0) : a + b = a ^^^ b := by
  apply UInt64.toBitVec_inj.mp
  have hand : a.toBitVec &&& b.toBitVec = 0#64 := congrArg UInt64.toBitVec h
  rw [UInt64.toBitVec_add, UInt64.toBitVec_xor, BitVec.add_eq_or_of_and_eq_zero _ _ hand]
  refine BitVec.eq_of_getLsbD_eq fun i hi => ?_
  have hbit := congrArg (·.getLsbD i) hand
  simp only [BitVec.getLsbD_and, BitVec.getLsbD_zero] at hbit
  rw [BitVec.getLsbD_or, BitVec.getLsbD_xor]
  cases ha : a.toBitVec.getLsbD i <;> cases hb : b.toBitVec.getLsbD i <;> simp_all

theorem xor_xor_cancel (a b : UInt64) : (a ^^^ b) ^^^ b = a := by
  rw [UInt64.xor_assoc, UInt64.xor_self, UInt64.xor_zero]

/-- Adding the top bit flips it. -/
theorem add_top (a : UInt64) : a + 0x8000000000000000 = a ^^^ 0x8000000000000000 := by
  cases h : a.toNat.testBit 63 with
  | false => exact add_eq_xor_of_and (@and_bit_eq_zero a 63 (by decide) h)
  | true =>
    have hflip : (a ^^^ 0x8000000000000000).toNat.testBit 63 = false := by
      rw [UInt64.toNat_xor, Nat.testBit_xor, h]
      decide
    have hadd := add_eq_xor_of_and (@and_bit_eq_zero (a ^^^ 0x8000000000000000) 63 (by decide) hflip)
    have hsum : (a ^^^ 0x8000000000000000) + 0x8000000000000000 = a := hadd.trans (xor_xor_cancel _ _)
    calc a + 0x8000000000000000
        = (a ^^^ 0x8000000000000000) + (0x8000000000000000 + 0x8000000000000000) := by
          rw [← UInt64.add_assoc, hsum]
      _ = a ^^^ 0x8000000000000000 := UInt64.add_zero _

/-- **Twins hash alike** in the low half. -/
theorem mix64Body_twin (w : UInt64) :
    (mix64Body (w ^^^ twinMask)).toNat % 2 ^ 32 = (mix64Body w).toNat % 2 ^ 32 := by
  have hfold : (w ^^^ twinMask) ^^^ ((w ^^^ twinMask) >>> 30) =
      (w ^^^ (w >>> 30)) ^^^ 0x8000000000000000 := by
    have hmask : twinMask ^^^ (twinMask >>> 30) = 0x8000000000000000 := by decide
    rw [UInt64.shiftRight_xor, ← hmask]
    ac_rfl
  have hmul : ∀ u : UInt64, (u + 0x8000000000000000) * 0xBF58476D1CE4E5B9 =
      u * 0xBF58476D1CE4E5B9 + 0x8000000000000000 := fun u => by
    rw [UInt64.add_mul]
    rfl
  unfold mix64Body
  rw [hfold, ← add_top]
  dsimp only
  rw [hmul, add_top]
  generalize (w ^^^ (w >>> 30)) * 0xBF58476D1CE4E5B9 = y
  have hlast : (y ^^^ (0x8000000000000000 : UInt64)) ^^^ ((y ^^^ (0x8000000000000000 : UInt64)) >>> 31) =
      (y ^^^ (y >>> 31)) ^^^ (0x8000000100000000 : UInt64) := by
    have hmask : (0x8000000000000000 : UInt64) ^^^ ((0x8000000000000000 : UInt64) >>> 31) =
        0x8000000100000000 := by decide
    rw [UInt64.shiftRight_xor, ← hmask]
    ac_rfl
  rw [hlast, UInt64.toNat_xor, Nat.xor_mod_two_pow]
  exact Nat.xor_zero _

/-- A sum with bits 3 and 33 clear has its twin at a fixed distance. -/
theorem twin_of_clear {w : UInt64} (h3 : w.toNat.testBit 3 = false) (h33 : w.toNat.testBit 33 = false) :
    w + 8 + 0x200000000 + 0x8000000000000000 = w ^^^ twinMask := by
  have e3 : w + 8 = w ^^^ 8 := add_eq_xor_of_and (@and_bit_eq_zero w 3 (by decide) h3)
  have hkeep : (w ^^^ 8).toNat.testBit 33 = false := by
    rw [UInt64.toNat_xor, Nat.testBit_xor, h33]
    decide
  have e33 : (w ^^^ 8) + 0x200000000 = (w ^^^ 8) ^^^ 0x200000000 :=
    add_eq_xor_of_and (@and_bit_eq_zero (w ^^^ 8) 33 (by decide) hkeep)
  have hmask : (8 : UInt64) ^^^ 0x200000000 ^^^ 0x8000000000000000 = twinMask := by decide
  rw [e3, e33, add_top, ← hmask]
  ac_rfl

theorem testBit_eq_false {n p : ℕ} (h : n / 2 ^ p % 2 = 0) : n.testBit p = false := by
  rw [Nat.testBit_eq_decide_div_mod_eq, h]
  rfl

/-- One of four neighbours of a sum has both bits clear. -/
theorem exists_clear (w : UInt64) : ∃ c ∈ ([0, 8, 0x200000000, 0x200000008] : List UInt64),
    (w + c).toNat.testBit 3 = false ∧ (w + c).toNat.testBit 33 = false := by
  have hadd : ∀ c : UInt64, (w + c).toNat = (w.toNat + c.toNat) % 2 ^ 64 := fun c => UInt64.toNat_add w c
  have h0 := hadd 0
  have h1 := hadd 8
  have h2 := hadd 0x200000000
  have h3 := hadd 0x200000008
  have hlt := w.toNat_lt
  rw [show (0 : UInt64).toNat = 0 from rfl] at h0
  rw [show (8 : UInt64).toNat = 8 from rfl] at h1
  rw [show (0x200000000 : UInt64).toNat = 8589934592 from rfl] at h2
  rw [show (0x200000008 : UInt64).toNat = 8589934600 from rfl] at h3
  rcases Nat.mod_two_eq_zero_or_one (w.toNat / 8) with hw | hw
  · rcases Nat.mod_two_eq_zero_or_one (w.toNat / 2 ^ 33) with hv | hv
    · exact ⟨0, by simp, testBit_eq_false (by omega), testBit_eq_false (by omega)⟩
    · exact ⟨0x200000000, by simp, testBit_eq_false (by omega), testBit_eq_false (by omega)⟩
  · rcases Nat.mod_two_eq_zero_or_one ((w + 8).toNat / 2 ^ 33) with hv | hv
    · exact ⟨8, by simp, testBit_eq_false (by omega), testBit_eq_false (by omega)⟩
    · exact ⟨0x200000008, by simp, testBit_eq_false (by omega), testBit_eq_false (by omega)⟩

/-- **Every displacement sends two of the keys to one slot.** -/
theorem slot_twins (z dFactor : UInt64) (n : ℕ) : ∃ c ∈ ([0, 8, 0x200000000, 0x200000008] : List UInt64),
    fastModU32 (mix64Body (z + c + dFactor)) n =
      fastModU32 (mix64Body (z + c + 0x8000000200000008 + dFactor)) n := by
  obtain ⟨c, hc, h3, h33⟩ := exists_clear (z + dFactor)
  refine ⟨c, hc, ?_⟩
  have hsum : z + c + dFactor = z + dFactor + c := by ac_rfl
  have htwin : z + c + 0x8000000200000008 + dFactor = (z + dFactor + c) ^^^ twinMask := by
    rw [← twin_of_clear h3 h33, show (0x8000000200000008 : UInt64) =
      8 + 0x200000000 + 0x8000000000000000 by decide]
    ac_rfl
  rw [hsum, htwin, fastModU32, fastModU32, mix64Body_twin]

end Zilkworm.Witness
