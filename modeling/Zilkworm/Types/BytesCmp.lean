/-
# Keys in memory order

`core/common_zz/bytes_cmp.hpp`: `lt_bytes32` compares two 32-byte keys by words.  The first words
that differ are masked up to their first differing byte, the lowest one of a little-endian word, and
the masked words order as the bytes do (`wordBelow_iff`).
-/
import Mathlib.Data.List.Basic
import Zilkworm.Types.Transaction
import Zilkworm.Lib.Words

namespace Zilkworm.Types

open List Lib Rlp

/-- The first words that differ, from word `i` on. -/
def differingWords (a b : Bytes32) (i : ℕ) : ℕ → Option (BitVec (8 * 4) × BitVec (8 * 4))
  | 0 => none
  | left + 1 =>
    if word32 a.val i ≠ word32 b.val i then some (word32 a.val i, word32 b.val i)
    else differingWords a b (i + 1) left

/-- The mask up to the lowest byte of `d` that is not zero. -/
def lowestByteMask (d : BitVec (8 * 4)) : BitVec (8 * 4) :=
  if d &&& 0xff#32 ≠ 0 then 0xff#32
  else if d &&& 0xffff#32 ≠ 0 then 0xffff#32
  else if d &&& 0xffffff#32 ≠ 0 then 0xffffff#32
  else ~~~0#32

/-- The order of two words that differ. -/
def wordBelow (x y : BitVec (8 * 4)) : Bool :=
  let m := lowestByteMask (x ^^^ y)
  x &&& m < y &&& m

/-- `lt_bytes32`, by words. -/
def ltBytes32 (a b : Bytes32) : Bool :=
  match differingWords a b 0 8 with
  | some (x, y) => wordBelow x y
  | none => false

/-! ## The order of words -/

theorem append_lt_append {x y u v : Bytes} (h : x.length = y.length) :
    x ++ u < y ++ v ↔ x < y ∨ (x = y ∧ u < v) := by
  induction x generalizing y with
  | nil =>
    rw [eq_nil_of_length_eq_zero h.symm]
    simp
  | cons a x ih =>
    obtain ⟨b, y, rfl⟩ := exists_cons_of_length_eq_add_one h.symm
    rw [cons_append, cons_append, cons_lt_cons_iff, cons_lt_cons_iff, ih (Nat.succ.inj h),
      List.cons.injEq]
    tauto

theorem toNat_and_mask (x : BitVec (8 * 4)) (k : ℕ) (hk : k ≤ 32) :
    (x &&& BitVec.ofNat (8 * 4) (2 ^ k - 1)).toNat = x.toNat % 2 ^ k := by
  have hpow : 2 ^ k ≤ 2 ^ 32 := Nat.pow_le_pow_right (by decide) hk
  have hpos : 0 < 2 ^ k := by positivity
  rw [BitVec.toNat_and, BitVec.toNat_ofNat, Nat.mod_eq_of_lt (by omega), Nat.and_two_pow_sub_one_eq_mod]

theorem xor_and_mask (x y : BitVec (8 * 4)) (k : ℕ) (hk : k ≤ 32) :
    (x ^^^ y) &&& BitVec.ofNat (8 * 4) (2 ^ k - 1) = 0 ↔ x.toNat % 2 ^ k = y.toNat % 2 ^ k := by
  have hdistrib (m : BitVec (8 * 4)) : (x ^^^ y) &&& m = (x &&& m) ^^^ (y &&& m) := by
    ext i
    simp [Bool.and_xor_distrib_right]
  change _ = 0#(8 * 4) ↔ _
  rw [hdistrib, BitVec.xor_eq_zero_iff, ← BitVec.toNat_inj, toNat_and_mask _ k hk, toNat_and_mask _ k hk]

/-- **Masked words order as their bytes.** -/
theorem wordBelow_iff {x y : Bytes} (hx : x.length = 4) (hy : y.length = 4) (hne : x ≠ y) :
    wordBelow (wordOf 4 x) (wordOf 4 y) = true ↔ x < y := by
  have hX := toNat_wordOf hx
  have hY := toNat_wordOf hy
  obtain ⟨x₀, x₁, x₂, x₃, rfl⟩ := length_eq_four.mp hx
  obtain ⟨y₀, y₁, y₂, y₃, rfl⟩ := length_eq_four.mp hy
  simp only [leNat] at hX hY
  have hx₀ := x₀.toNat_lt
  have hx₁ := x₁.toNat_lt
  have hx₂ := x₂.toNat_lt
  have hy₀ := y₀.toNat_lt
  have hy₁ := y₁.toNat_lt
  have hy₂ := y₂.toNat_lt
  simp only [ne_eq, List.cons.injEq, and_true, ← UInt8.toNat_inj] at hne
  simp only [cons_lt_cons_iff, UInt8.lt_iff_toNat_lt, ← UInt8.toNat_inj, List.lt_irrefl,
    and_false, or_false]
  generalize wordOf 4 [x₀, x₁, x₂, x₃] = x, wordOf 4 [y₀, y₁, y₂, y₃] = y at hX hY ⊢
  have hmask (v : BitVec (8 * 4)) : (v &&& 0xff#32).toNat = v.toNat % 2 ^ 8 ∧
      (v &&& 0xffff#32).toNat = v.toNat % 2 ^ 16 ∧
      (v &&& 0xffffff#32).toNat = v.toNat % 2 ^ 24 ∧ (v &&& ~~~0#32).toNat = v.toNat % 2 ^ 32 :=
    ⟨toNat_and_mask v 8 (by decide), toNat_and_mask v 16 (by decide), toNat_and_mask v 24 (by decide),
      toNat_and_mask v 32 (by decide)⟩
  have h8 : (x ^^^ y) &&& 0xff#32 = 0 ↔
      x.toNat % 2 ^ 8 = y.toNat % 2 ^ 8 := xor_and_mask x y 8 (by decide)
  have h16 : (x ^^^ y) &&& 0xffff#32 = 0 ↔
      x.toNat % 2 ^ 16 = y.toNat % 2 ^ 16 := xor_and_mask x y 16 (by decide)
  have h24 : (x ^^^ y) &&& 0xffffff#32 = 0 ↔
      x.toNat % 2 ^ 24 = y.toNat % 2 ^ 24 := xor_and_mask x y 24 (by decide)
  rw [wordBelow, decide_eq_true_iff, BitVec.lt_def, lowestByteMask]
  split_ifs with hd8 hd16 hd24
  · rw [(hmask x).1, (hmask y).1]
    rw [ne_eq, h8] at hd8
    omega
  · rw [not_not, h8] at hd8
    rw [ne_eq, h16] at hd16
    rw [(hmask x).2.1, (hmask y).2.1]
    omega
  · rw [not_not, h16] at hd16
    rw [ne_eq, h24] at hd24
    rw [(hmask x).2.2.1, (hmask y).2.2.1]
    omega
  · rw [not_not, h24] at hd24
    rw [(hmask x).2.2.2, (hmask y).2.2.2]
    omega

theorem length_slice_word (key : Bytes32) {i : ℕ} (hi : i < 8) : (slice key.val (4 * i) 4).length = 4 :=
  slice_length_of_le (by rw [key.2]; omega)

theorem word32_eq_iff (a b : Bytes32) {i : ℕ} (hi : i < 8) :
    word32 a.val i = word32 b.val i ↔ slice a.val (4 * i) 4 = slice b.val (4 * i) 4 := by
  constructor
  · intro h
    have hbytes := congrArg wordBytes h
    rwa [word32, word32, wordBytes_wordOf (length_slice_word a hi),
      wordBytes_wordOf (length_slice_word b hi)] at hbytes
  · intro h
    rw [word32, word32, h]

theorem differingWords_spec (a b : Bytes32) {i left : ℕ} (hi : i + left = 8) :
    (differingWords a b i left = none ↔ a.val.drop (4 * i) = b.val.drop (4 * i)) ∧
      ((match differingWords a b i left with
        | some (x, y) => wordBelow x y
        | none => false) = true ↔ a.val.drop (4 * i) < b.val.drop (4 * i)) := by
  induction left generalizing i with
  | zero =>
    obtain rfl : i = 8 := by omega
    have hend (key : Bytes32) : key.val.drop (4 * 8) = [] := drop_eq_nil_of_le (by rw [key.2])
    rw [hend, hend, differingWords]
    simp
  | succ left ih =>
    have hi8 : i < 8 := by omega
    have hlen := (length_slice_word a hi8).trans (length_slice_word b hi8).symm
    have hword := word32_eq_iff a b hi8
    rw [drop_word32 a.val i, drop_word32 b.val i, append_lt_append hlen, differingWords]
    obtain ⟨hnone, hlt⟩ := @ih (i + 1) (by omega)
    by_cases heq : word32 a.val i = word32 b.val i
    · rw [if_neg (not_not.mpr heq), hword.mp heq]
      refine ⟨hnone.trans (append_right_inj _).symm, hlt.trans ?_⟩
      simp
    · have hne : slice a.val (4 * i) 4 ≠ slice b.val (4 * i) 4 := fun h => heq (hword.mpr h)
      rw [if_pos heq]
      refine ⟨⟨fun h => absurd h (by simp), fun h => absurd (append_inj_left h hlen) hne⟩,
        (wordBelow_iff (length_slice_word a hi8) (length_slice_word b hi8) hne).trans ?_⟩
      simp [hne]

/-- **`lt_bytes32` orders keys as `memcmp` does.** -/
theorem ltBytes32_iff (a b : Bytes32) : ltBytes32 a b = true ↔ a.val < b.val := by
  have h := (differingWords_spec a b (Nat.zero_add 8)).2
  rwa [Nat.mul_zero, drop_zero, drop_zero] at h

theorem differingWords_eq_none (a b : Bytes32) : differingWords a b 0 8 = none ↔ a = b := by
  have h := (differingWords_spec a b (Nat.zero_add 8)).1
  rwa [Nat.mul_zero, drop_zero, drop_zero, ← Subtype.ext_iff] at h

end Zilkworm.Types
