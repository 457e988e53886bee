/-
# Byte strings and the numbers they spell

A byte string is a `List UInt8`.  Binary formats read it in two ways: at fixed
offsets, little-endian (a header of machine words), and as a minimal big-endian
number (a length prefix).  This module fixes both readings and the facts that make
the minimal form canonical: a big-endian string without a leading zero is determined
by its value, and conversely.
-/
import Mathlib.Data.Nat.Digits.Defs
import Mathlib.Algebra.Order.Group.Nat
import Mathlib.Tactic.Ring

namespace Zilkworm.Lib

open List

variable {k n : ℕ}

/-- A byte string. -/
abbrev Bytes := List UInt8

/-- The `len` bytes from offset `off` (fewer if the string ends first). -/
def slice (b : Bytes) (off len : ℕ) : Bytes := (b.drop off).take len

theorem slice_length (b : Bytes) (off len : ℕ) :
    (slice b off len).length = min len (b.length - off) := by
  simp [slice]

/-- A slice inside the bytes has the length asked for. -/
theorem slice_length_of_le {b : Bytes} {off len : ℕ} (h : off + len ≤ b.length) :
    (slice b off len).length = len := by
  rw [slice_length]; omega

theorem slice_drop (b : Bytes) (off len k : ℕ) :
    (slice b off len).drop k = slice b (off + k) (len - k) := by
  unfold slice
  rw [drop_take, drop_drop]

theorem slice_take (b : Bytes) {off len : ℕ} (h : k ≤ len) :
    (slice b off len).take k = slice b off k := by
  unfold slice
  rw [take_take, Nat.min_eq_left h]

/-- The little-endian number of a byte string. -/
def leNat : Bytes → ℕ
  | [] => 0
  | b :: bs => b.toNat + 256 * leNat bs

/-- The big-endian number of a byte string. -/
def beNat (b : Bytes) : ℕ := leNat b.reverse

/-- Little-endian base-256 digits, without a zero at the end; `fuel ≥ n` suffices. -/
def leDigits : (fuel n : ℕ) → Bytes
  | 0, _ => []
  | fuel + 1, n => if n = 0 then [] else UInt8.ofNat n :: leDigits fuel (n / 256)

/-- The shortest big-endian string of a number: empty for zero, no leading zero byte. -/
def toBigCompact (n : ℕ) : Bytes := (leDigits n n).reverse

/-- The `k` low bytes of a number, little-endian. -/
def toLe : (k n : ℕ) → Bytes
  | 0, _ => []
  | k + 1, n => UInt8.ofNat n :: toLe k (n / 256)

/-- The little-endian 32-bit word at an offset. -/
def u32At (b : Bytes) (off : ℕ) : ℕ := leNat (slice b off 4)

/-- The little-endian 64-bit word at an offset. -/
def u64At (b : Bytes) (off : ℕ) : ℕ := leNat (slice b off 8)

/-- Rounding up to a multiple of eight, `(v + 7) & ~7`. -/
def align8 (v : ℕ) : ℕ := (v + 7) / 8 * 8

theorem align8_mod (v : ℕ) : align8 v % 8 = 0 := by unfold align8; omega

theorem align8_of_mod {v : ℕ} (h : v % 8 = 0) : align8 v = v := by unfold align8; omega

theorem le_align8 (v : ℕ) : v ≤ align8 v := by unfold align8; omega

/-- Bytes padded with zeros to a multiple of eight. -/
def padded8 (b : Bytes) : Bytes := b ++ replicate (align8 b.length - b.length) 0

@[simp] theorem padded8_length (b : Bytes) : (padded8 b).length = align8 b.length := by
  have := le_align8 b.length
  rw [padded8, length_append, length_replicate]
  omega

/-- Rounding up to a multiple of 8 stays below a multiple of 8. -/
theorem align8_le {v : ℕ} (h : v ≤ n) (hn : n % 8 = 0) : align8 v ≤ n := by
  unfold align8; omega

theorem leNat_lt (b : Bytes) : leNat b < 256 ^ b.length := by
  induction b with
  | nil => simp [leNat]
  | cons x xs ih =>
    have hx := x.toNat_lt
    simp only [leNat, length_cons, Nat.pow_succ]
    omega

theorem beNat_lt (b : Bytes) : beNat b < 256 ^ b.length := by
  simpa [beNat] using leNat_lt b.reverse

theorem leNat_append (a b : Bytes) : leNat (a ++ b) = leNat a + 256 ^ a.length * leNat b := by
  induction a with
  | nil => simp [leNat]
  | cons x xs ih =>
    simp only [cons_append, leNat, ih, length_cons, Nat.pow_succ]
    ring

theorem u32At_lt (b : Bytes) (off : ℕ) : u32At b off < 2 ^ 32 := by
  have h := leNat_lt (slice b off 4)
  have hl : (slice b off 4).length ≤ 4 := by rw [slice_length]; omega
  calc u32At b off < 256 ^ (slice b off 4).length := h
    _ ≤ 256 ^ 4 := Nat.pow_le_pow_right (by decide) hl

theorem u64At_lt (b : Bytes) (off : ℕ) : u64At b off < 2 ^ 64 := by
  have h := leNat_lt (slice b off 8)
  have hl : (slice b off 8).length ≤ 8 := by rw [slice_length]; omega
  calc u64At b off < 256 ^ (slice b off 8).length := h
    _ ≤ 256 ^ 8 := Nat.pow_le_pow_right (by decide) hl

@[simp] theorem toLe_length (k n : ℕ) : (toLe k n).length = k := by
  induction k generalizing n with
  | zero => rfl
  | succ k ih => simp [toLe, ih]

/-- A number of `k` bytes is read back modulo `256 ^ k`. -/
theorem leNat_toLe (k n : ℕ) : leNat (toLe k n) = n % 256 ^ k := by
  induction k generalizing n with
  | zero => simp [toLe, leNat, Nat.mod_one]
  | succ k ih =>
    simp only [toLe, leNat, ih, UInt8.toNat_ofNat']
    rw [show 256 ^ (k + 1) = 256 * 256 ^ k by ring, Nat.mod_mul]

/-- The digits spell the number. -/
theorem leNat_leDigits {fuel : ℕ} (h : n ≤ fuel) : leNat (leDigits fuel n) = n := by
  induction fuel generalizing n with
  | zero => obtain rfl : n = 0 := by omega
            rfl
  | succ fuel ih =>
    by_cases hn : n = 0
    · simp [leDigits, hn, leNat]
    · simp only [leDigits, hn, if_false, leNat]
      rw [ih (by omega), UInt8.toNat_ofNat']
      omega

/-- A digit string that does not end in zero is the digit string of its value. -/
theorem leDigits_leNat {b : Bytes} (h : ∀ x, b.getLast? = some x → x ≠ 0) {fuel : ℕ}
    (hf : leNat b ≤ fuel) : leDigits fuel (leNat b) = b := by
  induction b generalizing fuel with
  | nil => cases fuel <;> simp [leNat, leDigits]
  | cons x xs ih =>
    have hpos : leNat (x :: xs) ≠ 0 := by
      cases xs with
      | nil =>
        have hx : x ≠ 0 := h x rfl
        have : x.toNat ≠ 0 := fun h0 => hx (UInt8.toNat_inj.mp (by simpa using h0))
        simpa [leNat] using this
      | cons y ys =>
        -- the tail already has a non-zero value, by the same argument on its last byte
        have hys : leNat (y :: ys) ≠ 0 := by
          intro h0
          have := ih (fun z hz => h z (by simpa using hz)) (show leNat (y :: ys) ≤ 0 by omega)
          simp [leDigits] at this
        simp only [leNat] at hys ⊢
        omega
    obtain ⟨fuel, rfl⟩ : ∃ f, fuel = f + 1 := ⟨fuel - 1, by omega⟩
    have hlt := x.toNat_lt
    have hdiv : leNat (x :: xs) / 256 = leNat xs := by simp only [leNat]; omega
    have hmod : UInt8.ofNat (leNat (x :: xs)) = x := by
      apply UInt8.toNat_inj.mp
      rw [UInt8.toNat_ofNat']
      simp only [leNat]
      omega
    rw [leDigits, if_neg hpos, hdiv, hmod, ih]
    · intro z hz
      cases xs with
      | nil => simp at hz
      | cons y ys => exact h z (by simpa using hz)
    · have : leNat xs ≤ leNat (x :: xs) - 1 := by
        simp only [leNat] at hpos ⊢
        omega
      omega

/-- A number below `256 ^ k` has at most `k` digits. -/
theorem leDigits_length (h : n < 256 ^ k) (fuel : ℕ) : (leDigits fuel n).length ≤ k := by
  induction k generalizing n fuel with
  | zero =>
    obtain rfl : n = 0 := by simpa using h
    cases fuel <;> simp [leDigits]
  | succ k ih =>
    cases fuel with
    | zero => simp [leDigits]
    | succ fuel =>
      by_cases hn : n = 0
      · simp [leDigits, hn]
      · have : n / 256 < 256 ^ k := by
          rw [Nat.div_lt_iff_lt_mul (by decide)]
          rwa [Nat.pow_succ] at h
        simp only [leDigits, hn, if_false, length_cons]
        exact Nat.succ_le_succ (ih this fuel)

theorem toBigCompact_length (h : n < 256 ^ k) : (toBigCompact n).length ≤ k := by
  simpa [toBigCompact] using leDigits_length h n

/-- The big-endian digits of a number are read back. -/
theorem beNat_toBigCompact (n : ℕ) : beNat (toBigCompact n) = n := by
  simp [beNat, toBigCompact, leNat_leDigits]

theorem toBigCompact_pos (h : n ≠ 0) : 1 ≤ (toBigCompact n).length := by
  refine Nat.one_le_iff_ne_zero.mpr fun h0 => h ?_
  rw [← beNat_toBigCompact n, length_eq_zero_iff.mp h0]
  rfl

/-- **The minimal big-endian form is unique.**  A string without a leading zero byte is
the compact form of the number it spells. -/
theorem toBigCompact_beNat {b : Bytes} (h : ∀ x, b.head? = some x → x ≠ 0) :
    toBigCompact (beNat b) = b := by
  unfold toBigCompact beNat
  rw [leDigits_leNat (fun x hx => h x (by simpa using hx)) le_rfl, reverse_reverse]

theorem toNat_ofNat_byte (h : n < 256) : (UInt8.ofNat n).toNat = n := UInt8.toNat_ofNat_of_lt h

theorem toBigCompact_byte (h0 : 0 < n) (h : n < 256) : toBigCompact n = [UInt8.ofNat n] := by
  have hval : beNat [UInt8.ofNat n] = n := by
    simp [beNat, leNat, Nat.mod_eq_of_lt h]
  conv_lhs => rw [← hval]
  refine toBigCompact_beNat fun x hx => ?_
  obtain rfl : UInt8.ofNat n = x := by simpa using hx
  intro hzero
  have := congrArg UInt8.toNat hzero
  rw [toNat_ofNat_byte h] at this
  exact h0.ne' this

end Zilkworm.Lib
