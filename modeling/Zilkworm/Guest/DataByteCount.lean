/-
# Counting the non-zero bytes of calldata

`core/common_zz/data_byte_count.hpp`: `count_nonzero_bytes_words` counts bytes one by one up to a
word boundary and after the last whole word, and in between a word at a time.  A word's non-zero
bytes are flagged in its lanes (`byteOf_flags`), the flags of up to 255 words are added lane by
lane, and the lanes of that accumulator are summed by a multiplication (`toNat_sumLanes`).
-/
import Zilkworm.Lib.Lanes
import Zilkworm.Lib.WordMachine
import Mathlib.Algebra.BigOperators.Group.Finset.Basic

namespace Zilkworm.Guest

open List Lib

/-- The word type `W`. -/
inductive WordType where
  | uint32
  | uint64
  deriving DecidableEq

namespace WordType

/-- `kWord`. -/
def kWord : WordType → ℕ
  | uint32 => 4
  | uint64 => 8

/-- The words. -/
abbrev Word (W : WordType) : Type := BitVec (8 * W.kWord)

variable (W : WordType)

/-- `k7F`. -/
def k7F : W.Word := BitVec.ofNat _ 0x7F7F7F7F7F7F7F7F

/-- `k00FF`. -/
def k00FF : W.Word := BitVec.ofNat _ 0x00FF00FF00FF00FF

/-- `k0001`. -/
def k0001 : W.Word := BitVec.ofNat _ 0x0001000100010001

/-- A one in each lane of `w` that is not zero. -/
def flags (w : W.Word) : W.Word := ((((w &&& W.k7F) + W.k7F) ||| w) &&& ~~~W.k7F) >>> 7

/-- The sum of the lanes: pairwise into 16-bit lanes, and those with a multiplication. -/
def sumLanes (acc : W.Word) : W.Word :=
  let acc := (acc &&& W.k00FF) + ((acc >>> 8) &&& W.k00FF)
  (acc * W.k0001) >>> (8 * W.kWord - 16)

/-- The loop over the head: the pointer, the bytes left and the count it leaves. -/
def countHead : ℕ → ℕ → ℕ → Exec (ℕ × ℕ × ℕ)
  | p, 0, n => pure (p, 0, n)
  | p, left + 1, n =>
    if p % W.kWord ≠ 0 then do
      let x ← load 1 p
      countHead (p + 1) left (n + if x ≠ 0 then 1 else 0)
    else pure (p, left + 1, n)

/-- The inner loop over words. -/
def addWords : ℕ → W.Word → ℕ → Exec W.Word
  | _, acc, 0 => pure acc
  | p, acc, words + 1 => do
    let w ← load W.kWord p
    addWords (p + W.kWord) (if w ≠ 0 then acc + W.flags w else acc) words

theorem kWord_pos : 0 < W.kWord := by cases W <;> decide

/-- The loop over runs of at most 255 words. -/
def countWords (p left n : ℕ) : Exec (ℕ × ℕ × ℕ) :=
  if _h : left ≥ W.kWord then do
    let run := min (left - left % W.kWord) (255 * W.kWord)
    let acc ← W.addWords p 0 (run / W.kWord)
    countWords (p + run) (left - run) (n + (W.sumLanes acc).toNat)
  else pure (p, left, n)
termination_by left
decreasing_by
  have := W.kWord_pos
  have := Nat.mod_lt left W.kWord_pos
  omega

end WordType

/-- The loop over the tail. -/
def countTail : ℕ → ℕ → ℕ → Exec ℕ
  | _, 0, n => pure n
  | p, left + 1, n => do
    let x ← load 1 p
    countTail (p + 1) left (n + if x ≠ 0 then 1 else 0)

/-- `count_nonzero_bytes_words`. -/
def countNonzeroBytesWords (W : WordType) (data size : ℕ) : Exec ℕ := do
  let (p, left, n) ← W.countHead data size 0
  let (p, left, n) ← W.countWords p left n
  countTail p left n

/-! ## Lanes -/

namespace WordType

variable {W : WordType}

theorem byteOf_k7F {j : ℕ} (hj : j < W.kWord) : byteOf W.k7F j = 0x7f := by
  cases W <;> dsimp only [kWord] at hj <;> interval_cases j <;> rfl

theorem byteOf_not_k7F {j : ℕ} (hj : j < W.kWord) : byteOf (~~~W.k7F) j = 0x80 := by
  cases W <;> dsimp only [kWord] at hj <;> interval_cases j <;> rfl

/-- The flag of a lane, before it is moved down. -/
theorem lane_flag (x : UInt8) : (((x &&& 0x7f) + 0x7f) ||| x) &&& 0x80 = if x = 0 then 0 else 0x80 := by
  have h : ∀ n < 256, (((UInt8.ofNat n &&& 0x7f) + 0x7f) ||| UInt8.ofNat n) &&& 0x80 =
      if UInt8.ofNat n = 0 then 0 else 0x80 := by decide +kernel
  have hx := h x.toNat x.toNat_lt
  rwa [UInt8.ofNat_toNat] at hx

/-- **The lanes of a word that are not zero are flagged.** -/
theorem byteOf_flags (w : W.Word) {j : ℕ} (hj : j < W.kWord) :
    byteOf (W.flags w) j = if byteOf w j = 0 then 0 else 1 := by
  have hadd (i : ℕ) (hi : i < W.kWord) : byteOf ((w &&& W.k7F) + W.k7F) i =
      (byteOf w i &&& 0x7f) + 0x7f := by
    rw [byteOf_add _ hi, byteOf_and, byteOf_k7F hi]
    intro t ht
    rw [byteOf_and, byteOf_k7F ht, UInt8.toNat_and]
    have : (byteOf w t).toNat &&& (0x7f : UInt8).toNat ≤ 0x7f := Nat.and_le_right
    have : (0x7f : UInt8).toNat = 0x7f := rfl
    omega
  have hlane (i : ℕ) (hi : i < W.kWord) :
      byteOf ((((w &&& W.k7F) + W.k7F) ||| w) &&& ~~~W.k7F) i = if byteOf w i = 0 then 0 else 0x80 := by
    rw [byteOf_and, byteOf_or, hadd i hi, byteOf_not_k7F hi, lane_flag]
  rw [flags, byteOf_shiftTop _ hj, hlane j hj]
  · split_ifs <;> simp_all
  · intro i hi
    rw [hlane i hi]
    split_ifs <;> simp

theorem flags_zero : W.flags 0 = 0 := by cases W <;> rfl

/-- The multiplication in numbers: no 16-bit lane of the product overflows. -/
theorem sum_two_lanes {x₀ x₁ : ℕ} (h₀ : x₀ ≤ 510) (h₁ : x₁ ≤ 510) :
    (x₀ + 2 ^ 16 * x₁) % 2 ^ 32 * 0x00010001 % 2 ^ 32 / 2 ^ 16 = x₀ + x₁ := by
  have hproduct : (x₀ + 2 ^ 16 * x₁) * 0x00010001 = x₀ + 2 ^ 16 * (x₀ + x₁) + 2 ^ 32 * x₁ := by omega
  rw [Nat.mod_mul_mod, hproduct, Nat.add_mul_mod_self_left, Nat.mod_eq_of_lt (by omega),
    Nat.add_mul_div_left _ _ (by decide), Nat.div_eq_of_lt (by omega), Nat.zero_add]

theorem sum_four_lanes {x₀ x₁ x₂ x₃ : ℕ} (h₀ : x₀ ≤ 510) (h₁ : x₁ ≤ 510) (h₂ : x₂ ≤ 510)
    (h₃ : x₃ ≤ 510) :
    (x₀ + 2 ^ 16 * (x₁ + 2 ^ 16 * (x₂ + 2 ^ 16 * x₃))) % 2 ^ 64 * 0x0001000100010001 % 2 ^ 64 / 2 ^ 48 =
      x₀ + x₁ + x₂ + x₃ := by
  have hproduct : (x₀ + 2 ^ 16 * (x₁ + 2 ^ 16 * (x₂ + 2 ^ 16 * x₃))) * 0x0001000100010001 =
      x₀ + 2 ^ 16 * (x₀ + x₁) + 2 ^ 32 * (x₀ + x₁ + x₂) + 2 ^ 48 * (x₀ + x₁ + x₂ + x₃) +
        2 ^ 64 * (x₁ + x₂ + x₃ + 2 ^ 16 * (x₂ + x₃) + 2 ^ 32 * x₃) := by omega
  rw [Nat.mod_mul_mod, hproduct, Nat.add_mul_mod_self_left, Nat.mod_eq_of_lt (by omega),
    Nat.add_mul_div_left _ _ (by decide), Nat.div_eq_of_lt (by omega), Nat.zero_add]

/-- The lanes of even index. -/
theorem byteOf_k00FF (x : W.Word) {j : ℕ} (hj : j < W.kWord) :
    byteOf (x &&& W.k00FF) j = if j % 2 = 0 then byteOf x j else 0 := by
  have hconst : byteOf W.k00FF j = if j % 2 = 0 then 0xff else 0 := by
    cases W <;> dsimp only [kWord] at hj <;> interval_cases j <;> rfl
  rw [byteOf_and, hconst]
  split_ifs
  · exact UInt8.and_neg_one
  · exact UInt8.and_zero

/-- **The multiplication sums the lanes.** -/
theorem toNat_sumLanes (acc : W.Word) :
    (W.sumLanes acc).toNat = ∑ j ∈ Finset.range W.kWord, (byteOf acc j).toNat := by
  have hlt (j : ℕ) : (byteOf acc j).toNat ≤ 255 := Nat.le_of_lt_succ (UInt8.toNat_lt _)
  have hpair (i j : ℕ) : (byteOf acc i).toNat + (byteOf acc j).toNat ≤ 510 :=
    Nat.add_le_add (hlt i) (hlt j)
  have hx := toNat_eq_leNat (acc &&& W.k00FF)
  have hy := toNat_eq_leNat ((acc >>> 8) &&& W.k00FF)
  rw [map_congr_left fun j hj => byteOf_k00FF acc (mem_range.mp hj)] at hx
  rw [map_congr_left fun j hj => byteOf_k00FF (acc >>> 8) (mem_range.mp hj)] at hy
  simp only [byteOf_shiftLane] at hy
  rw [sumLanes, BitVec.toNat_ushiftRight, BitVec.toNat_mul, BitVec.toNat_add, hx, hy,
    Nat.shiftRight_eq_div_pow]
  clear hx hy
  cases W with
  | uint32 =>
    have h := sum_two_lanes (hpair 0 1) (hpair 2 3)
    generalize byteOf acc = lane at h ⊢
    have hlanes : leNat ((range 4).map fun j => if j % 2 = 0 then lane j else 0) +
        leNat ((range 4).map fun j => if j % 2 = 0 then lane (j + 1) else 0) =
          (lane 0).toNat + (lane 1).toNat + 2 ^ 16 * ((lane 2).toNat + (lane 3).toNat) := by
      simp [range_succ, leNat]
      omega
    have hsum : ∑ j ∈ Finset.range 4, (lane j).toNat =
        (lane 0).toNat + (lane 1).toNat + ((lane 2).toNat + (lane 3).toNat) := by
      simp only [Finset.sum_range_succ, Finset.sum_range_zero]
      omega
    exact ((congrArg (fun t => t % 2 ^ 32 * 0x00010001 % 2 ^ 32 / 2 ^ 16) hlanes).trans h).trans
      hsum.symm
  | uint64 =>
    have h := sum_four_lanes (hpair 0 1) (hpair 2 3) (hpair 4 5) (hpair 6 7)
    generalize byteOf acc = lane at h ⊢
    have hlanes : leNat ((range 8).map fun j => if j % 2 = 0 then lane j else 0) +
        leNat ((range 8).map fun j => if j % 2 = 0 then lane (j + 1) else 0) =
          (lane 0).toNat + (lane 1).toNat + 2 ^ 16 * ((lane 2).toNat + (lane 3).toNat +
            2 ^ 16 *
              ((lane 4).toNat + (lane 5).toNat + 2 ^ 16 * ((lane 6).toNat + (lane 7).toNat))) := by
      simp [range_succ, leNat]
      omega
    have hsum : ∑ j ∈ Finset.range 8, (lane j).toNat = (lane 0).toNat + (lane 1).toNat +
        ((lane 2).toNat + (lane 3).toNat) + ((lane 4).toNat + (lane 5).toNat) +
        ((lane 6).toNat + (lane 7).toNat) := by
      simp only [Finset.sum_range_succ, Finset.sum_range_zero]
      omega
    exact ((congrArg (fun t => t % 2 ^ 64 * 0x0001000100010001 % 2 ^ 64 / 2 ^ 48) hlanes).trans
      h).trans hsum.symm

end WordType

/-! ## The count -/

/-- The number of non-zero bytes among the `n` at `p`. -/
def nonzero (mem : ByteMap) (p n : ℕ) : ℕ := (mem.bytes p n).countP (· ≠ 0)

section Count

variable {mem : ByteMap} {P : ℕ → Prop} {p n left : ℕ}

theorem nonzero_add (a b : ℕ) : nonzero mem p (a + b) = nonzero mem p a + nonzero mem (p + a) b := by
  have hbytes : mem.bytes p (a + b) = mem.bytes p a ++ mem.bytes (p + a) b := by
    simp only [ByteMap.bytes, range_add, map_append, map_map, Function.comp_def, Nat.add_assoc]
  rw [nonzero, hbytes, countP_append, nonzero, nonzero]

theorem nonzero_one : nonzero mem p 1 = if mem p ≠ 0 then 1 else 0 := by
  simp [nonzero, ByteMap.bytes, countP_cons]

theorem nonzero_eq_sum : nonzero mem p n = ∑ j ∈ Finset.range n, if mem (p + j) = 0 then 0 else 1 := by
  induction n with
  | zero => rfl
  | succ n ih =>
    rw [nonzero_add, ih, Finset.sum_range_succ, nonzero_one]
    simp

/-- A byte counted. -/
theorem inspects_byte {β : Type} {g : ℕ → Exec β} {r : β} (hp : P p)
    (hg : Inspects 1 P mem (g (n + nonzero mem p 1)) r) :
    Inspects 1 P mem (load 1 p >>= fun x => g (n + if x ≠ 0 then 1 else 0)) r := by
  have hzero : mem.word 1 p = 0 ↔ mem p = 0 := by
    rw [← BitVec.toNat_inj, ByteMap.toNat_word_one, ← UInt8.toNat_inj]
    rfl
  refine (Inspects.load (Access.load_byte_ok hp)).bind ?_
  rw [nonzero_one] at hg
  simpa only [ne_eq, hzero] using hg

theorem countTail_inspects (hin : ∀ j < left, P (p + j)) :
    Inspects 1 P mem (countTail p left n) (n + nonzero mem p left) := by
  induction left generalizing p n with
  | zero => exact .pure _
  | succ left ih =>
    have hrest := @ih (p + 1) (n + nonzero mem p 1) fun j hj => by
      rw [Nat.add_assoc, Nat.add_comm 1 j]
      exact hin _ (by omega)
    rw [Nat.add_assoc, ← nonzero_add, Nat.add_comm 1 left] at hrest
    exact inspects_byte (hin 0 (by omega)) hrest

variable {W : WordType}

theorem countHead_inspects (hin : ∀ j < left, P (p + j)) :
    ∃ t ≤ left, Inspects 1 P mem (W.countHead p left n) (p + t, left - t, n + nonzero mem p t) ∧
      (t < left → (p + t) % W.kWord = 0) := by
  induction left generalizing p n with
  | zero => exact ⟨0, le_rfl, .pure _, nofun⟩
  | succ left ih =>
    rw [WordType.countHead]
    split_ifs with hp
    · obtain ⟨t, ht, hrun, haligned⟩ := @ih (p + 1) (n + nonzero mem p 1) fun j hj => by
        rw [Nat.add_assoc, Nat.add_comm 1 j]
        exact hin _ (by omega)
      rw [Nat.add_assoc, Nat.add_comm 1 t] at haligned
      rw [Nat.add_assoc n, ← nonzero_add, Nat.add_assoc p, Nat.add_comm 1 t] at hrun
      refine ⟨t + 1, by omega, ?_, fun h => haligned (by omega)⟩
      rw [Nat.add_sub_add_right]
      exact inspects_byte (hin 0 (by omega)) hrun
    · exact ⟨0, by omega, .pure _, fun _ => not_not.mp hp⟩

/-- **The accumulator**: the lanes of up to 255 words sum to the number of their non-zero bytes. -/
theorem addWords_inspects {acc : W.Word} {words : ℕ} (hp : p % W.kWord = 0)
    (hlanes : ∀ j < W.kWord, (byteOf acc j).toNat + words ≤ 255)
    (hin : ∀ j < words * W.kWord, P (p + j)) :
    ∃ acc', Inspects 1 P mem (W.addWords p acc words) acc' ∧
      ∑ j ∈ Finset.range W.kWord, (byteOf acc' j).toNat =
        (∑ j ∈ Finset.range W.kWord, (byteOf acc j).toNat) + nonzero mem p (words * W.kWord) := by
  induction words generalizing p acc with
  | zero => exact ⟨acc, .pure _, by rw [Nat.zero_mul]; rfl⟩
  | succ words ih =>
    have hcount : (words + 1) * W.kWord = W.kWord + words * W.kWord := by rw [Nat.succ_mul, Nat.add_comm]
    rw [hcount] at hin ⊢
    have hflag (j : ℕ) (hj : j < W.kWord) : (byteOf (W.flags (mem.word W.kWord p)) j).toNat =
        if mem (p + j) = 0 then 0 else 1 := by
      rw [WordType.byteOf_flags _ hj, ByteMap.byteOf_word _ _ hj]
      split_ifs <;> rfl
    have hlt (j : ℕ) (hj : j < W.kWord) :
        (byteOf acc j).toNat + (byteOf (W.flags (mem.word W.kWord p)) j).toNat < 256 := by
      have := hlanes j hj
      rw [hflag j hj]
      split_ifs <;> omega
    have hlane (j : ℕ) (hj : j < W.kWord) : (byteOf (acc + W.flags (mem.word W.kWord p)) j).toNat =
        (byteOf acc j).toNat + if mem (p + j) = 0 then 0 else 1 := by
      rw [byteOf_add hlt hj, UInt8.toNat_add, Nat.mod_eq_of_lt (hlt j hj), hflag j hj]
    have hsum : ∑ j ∈ Finset.range W.kWord, (byteOf (acc + W.flags (mem.word W.kWord p)) j).toNat =
        (∑ j ∈ Finset.range W.kWord, (byteOf acc j).toNat) + nonzero mem p W.kWord := by
      rw [nonzero_eq_sum, ← Finset.sum_add_distrib]
      exact Finset.sum_congr rfl fun j hj => hlane j (Finset.mem_range.mp hj)
    obtain ⟨acc', hrun, hacc⟩ :=
      @ih (p + W.kWord) (acc + W.flags (mem.word W.kWord p)) (by rw [Nat.add_mod_right, hp])
      (fun j hj => by
        have := hlanes j hj
        rw [hlane j hj]
        split_ifs <;> omega)
      (fun j hj => by rw [Nat.add_assoc]; exact hin _ (by omega))
    refine ⟨acc', (Inspects.load (Access.ok_of_inside rfl hp fun j hj => hin j (by omega))).bind ?_, ?_⟩
    · -- a zero word has no flags
      have hskip : (if mem.word W.kWord p ≠ 0 then acc + W.flags (mem.word W.kWord p) else acc) =
          acc + W.flags (mem.word W.kWord p) := by
        split_ifs with h
        · rfl
        · rw [not_not.mp h, WordType.flags_zero]
          exact (BitVec.add_zero acc).symm
      rw [hskip]
      exact hrun
    · rw [hacc, hsum, nonzero_add, Nat.add_assoc]

theorem countWords_inspects (hp : 0 < left → p % W.kWord = 0) (hin : ∀ j < left, P (p + j)) :
    Inspects 1 P mem (W.countWords p left n)
      (p + (left - left % W.kWord), left % W.kWord, n + nonzero mem p (left - left % W.kWord)) := by
  induction left using Nat.strong_induction_on generalizing p n with
  | _ left ih =>
    have hpos := W.kWord_pos
    have hmod := Nat.mod_lt left hpos
    rw [WordType.countWords]
    split_ifs with hleft
    · have hwhole : left - left % W.kWord = left / W.kWord * W.kWord := by
        have := Nat.div_add_mod' left W.kWord
        omega
      have hrun : min (left - left % W.kWord) (255 * W.kWord) = min (left / W.kWord) 255 * W.kWord := by
        rw [hwhole, Nat.mul_min_mul_right]
      have hone : 1 ≤ left / W.kWord := Nat.div_pos hleft hpos
      have hle : min (left / W.kWord) 255 * W.kWord ≤ left / W.kWord * W.kWord :=
        Nat.mul_le_mul_right _ (min_le_left _ _)
      have hword : W.kWord ≤ min (left / W.kWord) 255 * W.kWord := Nat.le_mul_of_pos_left _ (by omega)
      obtain ⟨acc, haddWords, hsum⟩ :=
        @addWords_inspects mem P p W 0 (min (left / W.kWord) 255) (hp (by omega))
        (fun j _ => by simp [byteOf]) fun j hj => hin j (by omega)
      have hlanes : (W.sumLanes acc).toNat = nonzero mem p (min (left / W.kWord) 255 * W.kWord) := by
        rw [WordType.toNat_sumLanes, hsum, Finset.sum_eq_zero fun j _ => by simp [byteOf], Nat.zero_add]
      dsimp only
      rw [hrun, Nat.mul_div_cancel _ hpos]
      refine haddWords.bind ?_
      rw [hlanes]
      have hdvd : W.kWord ∣ min (left / W.kWord) 255 * W.kWord := Nat.dvd_mul_left _ _
      generalize min (left / W.kWord) 255 * W.kWord = run at *
      have hmodrun : (left - run) % W.kWord = left % W.kWord := by
        obtain ⟨e, rfl⟩ := hdvd
        exact Nat.sub_mul_mod (by omega)
      have hnext : (p + run) % W.kWord = 0 :=
        Nat.mod_eq_zero_of_dvd (Nat.dvd_add (Nat.dvd_of_mod_eq_zero (hp (by omega))) hdvd)
      have hrest :=
        ih (left - run) (by omega) (p := p + run) (n := n + nonzero mem p run) (fun _ => hnext)
        fun j hj => by rw [Nat.add_assoc]; exact hin _ (by omega)
      rw [hmodrun, Nat.add_assoc n, ← nonzero_add, Nat.add_assoc p,
        show run + (left - run - left % W.kWord) = left - left % W.kWord by omega] at hrest
      exact hrest
    · rw [Nat.mod_eq_of_lt (by omega), Nat.sub_self]
      exact .pure _

end Count

/-- **The count is right and reads nothing else.**  For every range, at any alignment, and both word
types, `count_nonzero_bytes_words` returns the number of its non-zero bytes; it only loads, every
load is aligned, and every byte loaded lies in the range. -/
theorem countNonzeroBytesWords_correct (W : WordType) (data size : ℕ) (m : Machine) :
    ∃ new, countNonzeroBytesWords W data size m =
      some ((m.mem.bytes data size).countP (· ≠ 0), ⟨m.mem, m.log ++ new⟩) ∧
      ∀ acc ∈ new, ∃ k a, acc = .load k a ∧ a % k = 0 ∧ ∀ i < k, data ≤ a + i ∧ a + i < data + size := by
  let inRange (x : ℕ) : Prop := data ≤ x ∧ x < data + size
  have hin (j : ℕ) (hj : j < size) : inRange (data + j) := ⟨by omega, by omega⟩
  obtain ⟨t, ht, hhead, haligned⟩ := @countHead_inspects m.mem inRange data 0 size W hin
  have hwords := @countWords_inspects m.mem inRange (data + t) (0 + nonzero m.mem data t) (size - t) W
    (fun h => haligned (by omega)) fun j hj => by rw [Nat.add_assoc]; exact hin _ (by omega)
  have hmod : (size - t) % W.kWord ≤ size - t := Nat.mod_le _ _
  have htail := @countTail_inspects m.mem inRange (data + t + (size - t - (size - t) % W.kWord))
    (0 + nonzero m.mem data t + nonzero m.mem (data + t) (size - t - (size - t) % W.kWord))
    ((size - t) % W.kWord)
    fun j hj => by rw [Nat.add_assoc, Nat.add_assoc]; exact hin _ (by omega)
  have hall : Inspects 1 inRange m.mem (countNonzeroBytesWords W data size) _ :=
    hhead.bind (hwords.bind htail)
  obtain ⟨new, hrun, hok⟩ := hall m.log
  refine ⟨new, ?_, fun acc hacc => ?_⟩
  · rw [Nat.zero_add, Nat.add_assoc (nonzero m.mem data t), ← nonzero_add,
      show size - t - (size - t) % W.kWord + (size - t) % W.kWord = size - t by omega, ← nonzero_add,
      show t + (size - t) = size by omega] at hrun
    exact hrun
  · obtain ⟨hacc', k, a, rfl⟩ := hok acc hacc
    refine ⟨k, a, rfl, hacc'.aligned _ (mem_singleton_self _), fun i hi => ?_⟩
    obtain ⟨x, hx, hdiv⟩ := hacc'.within _ (mem_singleton_self _) i hi
    rw [Nat.div_one, Nat.div_one] at hdiv
    exact hdiv ▸ hx

end Zilkworm.Guest
