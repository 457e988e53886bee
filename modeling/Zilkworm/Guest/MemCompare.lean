/-
# `memcmp` of the guests

`prover/guest_common/src/mem_builtins.cpp`: a comparison of `n` bytes in aligned machine words.
Between word-aligned operands the words are compared in place and the last one under a mask;
otherwise the words of an operand that is not aligned are put together from two aligned words
(`next`).  Where two words differ, their first differing byte decides.

Every piece returns the first difference of the part it compares (`difference`), whose sign is the
lexicographic order of the two ranges (`difference_lt_iff`).
-/
import Zilkworm.Guest.MemFill

namespace Zilkworm.Guest

open List

namespace Build

open Lib

/-! ## The model -/

/-- The loop of `first_difference` from byte `i` on, with `left` bytes before the last. -/
def firstDifferenceFrom (p q i : ℕ) : ℕ → Exec ℤ
  | 0 => do
    let x ← load 1 (p + i)
    let y ← load 1 (q + i)
    return (x.toNat : ℤ) - y.toNat
  | left + 1 => do
    let x ← load 1 (p + i)
    let y ← load 1 (q + i)
    if x ≠ y then return (x.toNat : ℤ) - y.toNat
    else firstDifferenceFrom p q (i + 1) left

/-- `first_difference`. -/
def firstDifference (n p q : ℕ) : Exec ℤ := firstDifferenceFrom p q 0 (n - 1)

/-- The loop over single bytes, from byte `i` on. -/
def compareBytes (p q i : ℕ) : ℕ → Exec ℤ
  | 0 => return 0
  | n + 1 => do
    let x ← load 1 (p + i)
    let y ← load 1 (q + i)
    if x ≠ y then return (x.toNat : ℤ) - y.toNat
    else compareBytes p q (i + 1) n

variable (b : Build)

/-- The loop over the words of two aligned operands, from word `i` on, and what comes after it. -/
def compareWords (p q : ℕ) (after : Exec ℤ) (i : ℕ) : ℕ → Exec ℤ
  | 0 => after
  | count + 1 => do
    let x ← load b.wordSize (p + i * b.wordSize)
    let y ← load b.wordSize (q + i * b.wordSize)
    if x ≠ y then firstDifference b.wordSize (p + i * b.wordSize) (q + i * b.wordSize)
    else compareWords p q after (i + 1) count

/-- `next`, with the pointer and the word it leaves. -/
def next (aligned : Bool) (w : ℕ) (cur : b.Word) (lo : ℕ) : Exec (b.Word × ℕ × b.Word) :=
  if aligned then do
    let v ← load b.wordSize w
    return (v, w + b.wordSize, cur)
  else do
    let nx ← load b.wordSize (w + b.wordSize)
    return ((cur >>> lo) ||| (nx <<< (8 * b.wordSize - lo)), w + b.wordSize, nx)

/-- The loop of `compare_unaligned` over words, from word `i` on, and what comes after it. -/
def compareRelaned (pAligned qAligned : Bool) (p q plo qlo : ℕ) (after : Exec ℤ) :
    ℕ → ℕ → b.Word → ℕ → b.Word → ℕ → Exec ℤ
  | _, _, _, _, _, 0 => after
  | i, pw, pc, qw, qc, words + 1 => do
    let (x, pw, pc) ← b.next pAligned pw pc plo
    let (y, qw, qc) ← b.next qAligned qw qc qlo
    if x ≠ y then firstDifference b.wordSize (p + i * b.wordSize) (q + i * b.wordSize)
    else compareRelaned pAligned qAligned p q plo qlo after (i + 1) pw pc qw qc words

/-- `ALIGNED ? 0 : w[0]`, the word carried of an operand. -/
def firstWord (aligned : Bool) (w : ℕ) : Exec b.Word := if aligned then pure 0 else load b.wordSize w

/-- `compare_unaligned`. -/
def compareUnaligned (pAligned qAligned : Bool) (p q n : ℕ) : Exec ℤ := do
  let plo := p % b.wordSize * 8
  let qlo := q % b.wordSize * 8
  let pw := p - plo / 8
  let qw := q - qlo / 8
  let pc ← b.firstWord pAligned pw
  let qc ← b.firstWord qAligned qw
  let words := n / b.wordSize
  let done := n - n % b.wordSize
  b.compareRelaned pAligned qAligned p q plo qlo (compareBytes p q done (n - done)) 0 pw pc qw qc words

/-- The last bytes of two aligned operands, in the words at `p` and `q` masked to them. -/
def compareMasked (p q rest : ℕ) : Exec ℤ :=
  if rest ≠ 0 then do
    let mask := (1#(8 * b.wordSize) <<< (8 * rest)) - 1#(8 * b.wordSize)
    let x ← load b.wordSize p
    let y ← load b.wordSize q
    if x &&& mask ≠ y &&& mask then firstDifference b.wordSize p q
    else return 0
  else return 0

/-- The last four bytes of two aligned addresses. -/
def compareHalf (p q : ℕ) : Exec ℤ := do
  let x ← load 4 p
  let y ← load 4 q
  if x ≠ y then firstDifference 4 p q else return 0

/-- `memcmp`. -/
def memcmp (p q n : ℕ) : Exec ℤ :=
  if (p ||| q) % b.wordSize = 0 then
    if n = 32 then b.compareWords p q (pure 0) 0 b.n32
    else if n = 20 then b.compareWords p q (compareHalf (p + 16) (q + 16)) 0 (16 / b.wordSize)
    else
      let words := n / b.wordSize
      b.compareWords p q
        (b.compareMasked (p + words * b.wordSize) (q + words * b.wordSize) (n % b.wordSize)) 0 words
  else if n < 16 then compareBytes p q 0 n
  else if p % b.wordSize = 0 then b.compareUnaligned true false p q n
  else if q % b.wordSize = 0 then b.compareUnaligned false true p q n
  else b.compareUnaligned false false p q n

/-! ## The first difference -/

/-- The difference of the first two bytes that differ among the `n` at `p` and `q`. -/
def difference (mem : ByteMap) (p q : ℕ) : ℕ → ℤ
  | 0 => 0
  | n + 1 => if mem p ≠ mem q then ((mem p).toNat : ℤ) - (mem q).toNat
    else difference mem (p + 1) (q + 1) n

section Difference

variable {mem : ByteMap} {p q n : ℕ}

theorem byte_sub_eq_zero {x y : UInt8} : (x.toNat : ℤ) - y.toNat = 0 ↔ x = y := by
  rw [sub_eq_zero, Nat.cast_inj, UInt8.toNat_inj]

theorem difference_eq_zero : difference mem p q n = 0 ↔ ∀ j < n, mem (p + j) = mem (q + j) := by
  induction n generalizing p q with
  | zero => simp [difference]
  | succ n ih =>
    have hshift : (∀ j < n + 1, mem (p + j) = mem (q + j)) ↔
        mem p = mem q ∧ ∀ j < n, mem (p + 1 + j) = mem (q + 1 + j) := by
      rw [Nat.forall_lt_succ_left]
      simp only [Nat.add_zero, Nat.add_assoc, Nat.add_comm 1]
    rw [hshift, difference]
    split_ifs with h
    · simp [byte_sub_eq_zero, h]
    · rw [ih]
      simp [not_not.mp h]

/-- The first part decides if it differs. -/
theorem difference_append (n₁ n₂ : ℕ) : difference mem p q (n₁ + n₂) =
    if difference mem p q n₁ ≠ 0 then difference mem p q n₁
      else difference mem (p + n₁) (q + n₁) n₂ := by
  induction n₁ generalizing p q with
  | zero => simp [difference]
  | succ n₁ ih =>
    rw [Nat.succ_add, difference, difference]
    split_ifs with h hzero hzero
    · rfl
    · exact absurd (not_not.mp hzero) (mt byte_sub_eq_zero.mp h)
    · rw [ih, if_pos hzero]
    · rw [ih, if_neg hzero, show p + 1 + n₁ = p + (n₁ + 1) by omega, show q + 1 + n₁ =
        q + (n₁ + 1) by omega]

/-- **The sign of the first difference is the lexicographic order.** -/
theorem difference_lt_iff : difference mem p q n < 0 ↔ mem.bytes p n < mem.bytes q n := by
  induction n generalizing p q with
  | zero => simp [difference, ByteMap.bytes]
  | succ n ih =>
    rw [ByteMap.bytes_succ, ByteMap.bytes_succ, cons_lt_cons_iff, difference, UInt8.lt_iff_toNat_lt]
    split_ifs with h
    · simp [h]
    · rw [ih]
      simp [not_not.mp h]

theorem difference_swap : difference mem q p n = -difference mem p q n := by
  induction n generalizing p q with
  | zero => rfl
  | succ n ih =>
    rw [difference, difference]
    split_ifs with h h' h'
    · ring
    · exact absurd (not_not.mp h') h.symm
    · exact absurd (not_not.mp h).symm h'
    · exact ih

theorem difference_eq_iff : difference mem p q n = 0 ↔ mem.bytes p n = mem.bytes q n := by
  rw [difference_eq_zero, ByteMap.bytes, ByteMap.bytes, map_inj_left]
  simp only [mem_range]

/-- Two words that differ decide. -/
theorem difference_of_word_ne {k : ℕ} (h : mem.word k p ≠ mem.word k q) (n : ℕ) :
    difference mem p q (k + n) = difference mem p q k := by
  rw [difference_append, if_pos]
  rwa [ne_eq, difference_eq_zero, ← ByteMap.word_inj]

theorem difference_of_word_eq {k : ℕ} (h : mem.word k p = mem.word k q) (n : ℕ) :
    difference mem p q (k + n) = difference mem (p + k) (q + k) n := by
  rw [difference_append, if_neg]
  rwa [not_not, difference_eq_zero, ← ByteMap.word_inj]

end Difference

/-! ## Bytes and words -/

section Compare

variable {b} {mem : ByteMap} {P : ℕ → Prop} {w p q n : ℕ}

/-- A byte load at each of two places. -/
theorem inspects_bytes {β : Type} {g : BitVec (8 * 1) → BitVec (8 * 1) → Exec β} {r : β} {a a' : ℕ}
    (h : (Access.load 1 a).Ok w P) (h' : (Access.load 1 a').Ok w P)
    (hg : Inspects w P mem (g (mem.word 1 a) (mem.word 1 a')) r) :
    Inspects w P mem (load 1 a >>= fun x => load 1 a' >>= fun y => g x y) r :=
  (Inspects.load h).bind ((Inspects.load h').bind hg)

theorem word_one_inj {a a' : ℕ} : mem.word 1 a = mem.word 1 a' ↔ mem a = mem a' := by
  rw [ByteMap.word_inj]
  simp

/-- A round of the loops over bytes. -/
theorem inspects_round {rest : Exec ℤ} {a a' : ℕ} (h : (Access.load 1 a).Ok w P)
    (h' : (Access.load 1 a').Ok w P)
    (hrest : Inspects w P mem rest (difference mem (a + 1) (a' + 1) n)) :
    Inspects w P mem (do
      let x ← load 1 a
      let y ← load 1 a'
      if x ≠ y then return (x.toNat : ℤ) - y.toNat else rest) (difference mem a a' (n + 1)) := by
  refine inspects_bytes h h' ?_
  rw [difference]
  by_cases heq : mem a = mem a'
  · rw [if_neg (not_not.mpr (word_one_inj.mpr heq)), if_neg (not_not.mpr heq)]
    exact hrest
  · rw [if_pos (mt word_one_inj.mp heq), if_pos heq, ByteMap.toNat_word_one, ByteMap.toNat_word_one]
    exact .pure _

/-- The loads of the bytes after the first. -/
theorem loads_tail {i n : ℕ} (hok : ∀ j < n + 1, (Access.load 1 (p + i + j)).Ok w P ∧
    (Access.load 1 (q + i + j)).Ok w P) :
    ∀ j < n, (Access.load 1 (p + (i + 1) + j)).Ok w P ∧ (Access.load 1 (q + (i + 1) + j)).Ok w P := by
  intro j hj
  rw [show p + (i + 1) + j = p + i + (j + 1) by omega, show q + (i + 1) + j = q + i + (j + 1) by omega]
  exact hok (j + 1) (by omega)

theorem firstDifferenceFrom_inspects {i left : ℕ}
    (hok : ∀ j < left + 1, (Access.load 1 (p + i + j)).Ok w P ∧ (Access.load 1 (q + i + j)).Ok w P) :
    Inspects w P mem (firstDifferenceFrom p q i left) (difference mem (p + i) (q + i) (left + 1)) := by
  induction left generalizing i with
  | zero =>
    have hval : difference mem (p + i) (q + i) (0 + 1) =
        ((mem.word 1 (p + i)).toNat : ℤ) - (mem.word 1 (q + i)).toNat := by
      rw [ByteMap.toNat_word_one, ByteMap.toNat_word_one, difference]
      split_ifs with h
      · rfl
      · exact (byte_sub_eq_zero.mpr (not_not.mp h)).symm
    rw [hval]
    exact inspects_bytes (hok 0 (by omega)).1 (hok 0 (by omega)).2 (.pure _)
  | succ left ih => exact inspects_round (hok 0 (by omega)).1 (hok 0 (by omega)).2 (ih (loads_tail hok))

theorem firstDifference_inspects {k : ℕ} (hk : 0 < k)
    (hok : ∀ j < k, (Access.load 1 (p + j)).Ok w P ∧ (Access.load 1 (q + j)).Ok w P) :
    Inspects w P mem (firstDifference k p q) (difference mem p q k) := by
  have h := @firstDifferenceFrom_inspects mem P w p q 0 (k - 1) (by rwa [Nat.sub_add_cancel hk])
  rwa [Nat.sub_add_cancel hk] at h

theorem compareBytes_inspects {i : ℕ}
    (hok : ∀ j < n, (Access.load 1 (p + i + j)).Ok w P ∧ (Access.load 1 (q + i + j)).Ok w P) :
    Inspects w P mem (compareBytes p q i n) (difference mem (p + i) (q + i) n) := by
  induction n generalizing i with
  | zero => exact .pure _
  | succ n ih => exact inspects_round (hok 0 (by omega)).1 (hok 0 (by omega)).2 (ih (loads_tail hok))

/-- Two words are compared, and their first differing byte decides if there is one. -/
theorem inspects_decide {rest : Exec ℤ} {a a' k : ℕ} (hk : 0 < k)
    (hok : ∀ j < k, (Access.load 1 (a + j)).Ok w P ∧ (Access.load 1 (a' + j)).Ok w P)
    (hrest : Inspects w P mem rest (difference mem (a + k) (a' + k) n)) :
    Inspects w P mem (if mem.word k a ≠ mem.word k a' then firstDifference k a a' else rest)
      (difference mem a a' (k + n)) := by
  split_ifs with h
  · rw [difference_of_word_ne h]
    exact firstDifference_inspects hk hok
  · rw [difference_of_word_eq (not_not.mp h)]
    exact hrest

theorem inspects_words {rest : Exec ℤ} {a a' k : ℕ} (hk : 0 < k) (ha : a % k = 0) (ha' : a' % k = 0)
    (hin : ∀ j < k, P (a + j) ∧ P (a' + j))
    (hrest : Inspects w P mem rest (difference mem (a + k) (a' + k) n)) :
    Inspects w P mem (do
      let x ← load k a
      let y ← load k a'
      if x ≠ y then firstDifference k a a' else rest) (difference mem a a' (k + n)) := by
  have hload : (Access.load k a).Ok w P := Access.ok_of_inside rfl ha fun j hj => (hin j hj).1
  have hload' : (Access.load k a').Ok w P := Access.ok_of_inside rfl ha' fun j hj => (hin j hj).2
  have hbytes (j : ℕ) (hj : j < k) :=
    And.intro (Access.load_byte_ok (w := w) (hin j hj).1) (Access.load_byte_ok (w := w) (hin j hj).2)
  exact (Inspects.load hload).bind ((Inspects.load hload').bind (inspects_decide hk hbytes hrest))

theorem compareWords_inspects {after : Exec ℤ} {i count rest : ℕ} (hp : p % b.wordSize = 0)
    (hq : q % b.wordSize = 0) (hin : ∀ j < (i + count) * b.wordSize, P (p + j) ∧ P (q + j))
    (hafter : Inspects w P mem after
      (difference mem (p + (i + count) * b.wordSize) (q + (i + count) * b.wordSize) rest)) :
    Inspects w P mem (b.compareWords p q after i count)
      (difference mem (p + i * b.wordSize) (q + i * b.wordSize) (count * b.wordSize + rest)) := by
  induction count generalizing i with
  | zero => rw [Nat.zero_mul, Nat.zero_add]; exact hafter
  | succ count ih =>
    have hshift : i + (count + 1) = i + 1 + count := by omega
    have hend : (i + 1) * b.wordSize ≤ (i + (count + 1)) * b.wordSize :=
      Nat.mul_le_mul_right _ (by omega)
    have hcount : (count + 1) * b.wordSize + rest = b.wordSize + (count * b.wordSize + rest) := by ring
    rw [hcount, compareWords]
    rw [Nat.succ_mul] at hend
    refine inspects_words b.wordSize_pos (aligned_add hp i) (aligned_add hq i) (fun j hj => ?_) ?_
    · rw [Nat.add_assoc, Nat.add_assoc]
      exact hin _ (by omega)
    · rw [hshift] at hin hafter
      have h := ih hin hafter
      rwa [Nat.succ_mul, ← Nat.add_assoc, ← Nat.add_assoc] at h

theorem word_mask_inj {rest : ℕ} (hrest : rest < b.wordSize) :
    mem.word b.wordSize p &&& ((1#(8 * b.wordSize) <<< (8 * rest)) - 1#(8 * b.wordSize)) =
        mem.word b.wordSize q &&& ((1#(8 * b.wordSize) <<< (8 * rest)) - 1#(8 * b.wordSize)) ↔
      ∀ j < rest, mem (p + j) = mem (q + j) := by
  have hbyte (a j : ℕ) (hj : j < b.wordSize) :
      byteOf (mem.word b.wordSize a &&& ((1#(8 * b.wordSize) <<< (8 * rest)) - 1#(8 * b.wordSize))) j =
        if j < rest then mem (a + j) else 0 := by
    have h := byteOf_lowMask 0#(8 * b.wordSize) (mem.word b.wordSize a) hrest hj
    rw [BitVec.zero_and, BitVec.zero_or] at h
    rw [h, ByteMap.byteOf_word _ _ hj, show byteOf 0#(8 * b.wordSize) j = 0 from repeats_zero j hj]
  constructor
  · intro h j hj
    have hj' := congrArg (byteOf · j) h
    rwa [hbyte p j (by omega), hbyte q j (by omega), if_pos hj, if_pos hj] at hj'
  · refine fun h => eq_of_byteOf fun j hj => ?_
    rw [hbyte p j hj, hbyte q j hj]
    split_ifs with hlt
    · exact h j hlt
    · rfl

theorem compareMasked_inspects {rest : ℕ} (hp : p % b.wordSize = 0) (hq : q % b.wordSize = 0)
    (hrest : rest < b.wordSize) (hin : 0 < rest → P p ∧ P q) :
    Inspects b.wordSize P mem (b.compareMasked p q rest) (difference mem p q rest) := by
  rw [compareMasked]
  split_ifs with hpos
  · obtain ⟨hP, hQ⟩ := hin (by omega)
    have hload {a : ℕ} (ha : a % b.wordSize = 0) (hPa : P a) :
        (Access.load b.wordSize a).Ok b.wordSize P :=
      Access.ok_of_word rfl ha hPa le_rfl (by omega)
    have hbyte {a : ℕ} (ha : a % b.wordSize = 0) (hPa : P a) (j : ℕ) (hj : j < b.wordSize) :
        (Access.load 1 (a + j)).Ok b.wordSize P :=
      Access.ok_in_word rfl (Nat.mod_one _) ha (by omega) (by omega) hPa le_rfl (by omega)
    refine (Inspects.load (hload hp hP)).bind ((Inspects.load (hload hq hQ)).bind ?_)
    split_ifs with hne
    · have hword : difference mem p q b.wordSize = difference mem p q rest := by
        conv_lhs => rw [← Nat.add_sub_cancel' hrest.le]
        rw [difference_append, if_pos]
        rwa [ne_eq, difference_eq_zero, ← word_mask_inj hrest]
      rw [← hword]
      exact firstDifference_inspects b.wordSize_pos fun j hj => ⟨hbyte hp hP j hj, hbyte hq hQ j hj⟩
    · rw [difference_eq_zero.mpr ((word_mask_inj hrest).mp (not_not.mp hne))]
      exact .pure _
  · obtain rfl : rest = 0 := by omega
    exact .pure _

/-! ## Operands that are not aligned -/

/-- What `next` keeps of an operand at `p` whose word `i` is next: the pointer to the aligned word
that holds its first byte, and, if the operand is not aligned, that word. -/
structure Operand (b : Build) (mem : ByteMap) (aligned : Bool) (p i w : ℕ) (cur : b.Word) : Prop where
  aligned_iff : aligned = true ↔ p % b.wordSize = 0
  pointer : w = p - p % b.wordSize + i * b.wordSize
  carried : aligned = false → cur = mem.word b.wordSize w

theorem next_inspects {aligned : Bool} {i pw : ℕ} {cur : b.Word} (h : Operand b mem aligned p i pw cur)
    (hin : ∀ j < b.wordSize, P (p + i * b.wordSize + j)) :
    ∃ pw' cur', Inspects b.wordSize P mem (b.next aligned pw cur (p % b.wordSize * 8))
        (mem.word b.wordSize (p + i * b.wordSize), pw', cur') ∧
          Operand b mem aligned p (i + 1) pw' cur' := by
  have hpos := b.wordSize_pos
  have hstep : pw + b.wordSize =
      p - p % b.wordSize + (i + 1) * b.wordSize := by rw [h.pointer, Nat.succ_mul, Nat.add_assoc]
  have hbase : (p - p % b.wordSize) % b.wordSize = 0 :=
    Nat.sub_mod_eq_zero_of_mod_eq (Nat.mod_mod _ _).symm
  cases aligned with
  | true =>
    have hp := h.aligned_iff.mp rfl
    have hword : pw = p + i * b.wordSize := by rw [h.pointer, hp, Nat.sub_zero]
    refine ⟨pw + b.wordSize, cur, ?_, h.aligned_iff, hstep, nofun⟩
    rw [next, if_pos rfl, ← hword]
    exact (Inspects.load
      (Access.ok_of_inside rfl (hword ▸ aligned_add hp i) fun j hj => hword ▸ hin j hj)).bind
      (.pure _)
  | false =>
    have hphase : p % b.wordSize ≠ 0 := mt h.aligned_iff.mpr (by decide)
    have hlt : p % b.wordSize < b.wordSize := Nat.mod_lt _ hpos
    have hle : p % b.wordSize ≤ p := Nat.mod_le _ _
    refine ⟨pw + b.wordSize, mem.word b.wordSize (pw + b.wordSize), ?_, h.aligned_iff, hstep,
      fun _ => rfl⟩
    have hshift : 8 * b.wordSize - p % b.wordSize * 8 = 8 * (b.wordSize - p % b.wordSize) := by omega
    have hvalue : (cur >>> (p % b.wordSize * 8)) |||
        (mem.word b.wordSize (pw + b.wordSize) <<< (8 * b.wordSize - p % b.wordSize * 8)) =
          mem.word b.wordSize (p + i * b.wordSize) := by
      refine mem.word_eq_of_byteOf fun j hj => ?_
      rw [hshift, Nat.mul_comm _ 8, byteOf_relane _ _ hlt.le hj, h.carried rfl, h.pointer]
      split_ifs with hj'
      · rw [ByteMap.byteOf_word _ _ hj']
        congr 1
        omega
      · rw [ByteMap.byteOf_word _ _ (by omega)]
        congr 1
        omega
    have hload : (Access.load b.wordSize (pw + b.wordSize)).Ok b.wordSize P := by
      refine Access.ok_of_word rfl (hstep ▸ aligned_add hbase _)
        (hin (b.wordSize - 1) (by omega)) ?_ ?_ <;>
        rw [h.pointer] <;> omega
    rw [next, if_neg (by decide), ← hvalue]
    exact (Inspects.load hload).bind (.pure _)

theorem compareRelaned_inspects {pAligned qAligned : Bool} {after : Exec ℤ} {i words rest pw qw : ℕ}
    {pc qc : b.Word} (hp : Operand b mem pAligned p i pw pc) (hq : Operand b mem qAligned q i qw qc)
    (hin : ∀ j < (i + words) * b.wordSize, P (p + j) ∧ P (q + j))
    (hafter : Inspects b.wordSize P mem after
      (difference mem (p + (i + words) * b.wordSize) (q + (i + words) * b.wordSize) rest)) :
    Inspects b.wordSize P mem
      (b.compareRelaned pAligned qAligned p q (p % b.wordSize * 8)
        (q % b.wordSize * 8) after i pw pc qw qc words)
      (difference mem (p + i * b.wordSize) (q + i * b.wordSize) (words * b.wordSize + rest)) := by
  induction words generalizing i pw pc qw qc with
  | zero => rw [Nat.zero_mul, Nat.zero_add]; exact hafter
  | succ words ih =>
    have hshift : i + (words + 1) = i + 1 + words := by omega
    have hend : (i + 1) * b.wordSize ≤ (i + (words + 1)) * b.wordSize :=
      Nat.mul_le_mul_right _ (by omega)
    have hcount : (words + 1) * b.wordSize + rest = b.wordSize + (words * b.wordSize + rest) := by ring
    rw [Nat.succ_mul] at hend
    have hinside (j : ℕ) (hj : j < b.wordSize) : P (p + i * b.wordSize + j) ∧
        P (q + i * b.wordSize + j) := by
      rw [Nat.add_assoc, Nat.add_assoc]
      exact hin _ (by omega)
    obtain ⟨pw', pc', hnextp, hp'⟩ := next_inspects hp fun j hj => (hinside j hj).1
    obtain ⟨qw', qc', hnextq, hq'⟩ := next_inspects hq fun j hj => (hinside j hj).2
    have hrest := ih hp' hq' (hshift ▸ hin) (hshift ▸ hafter)
    rw [Nat.succ_mul, ← Nat.add_assoc, ← Nat.add_assoc] at hrest
    rw [hcount, compareRelaned]
    refine hnextp.bind (hnextq.bind (inspects_decide b.wordSize_pos (fun j hj => ?_) hrest))
    exact ⟨Access.load_byte_ok (hinside j hj).1, Access.load_byte_ok (hinside j hj).2⟩

theorem compareUnaligned_inspects {pAligned qAligned : Bool} (hp : pAligned = true ↔ p % b.wordSize = 0)
    (hq : qAligned = true ↔ q % b.wordSize = 0) (hn : 0 < n) :
    Inspects b.wordSize (InRanges p q n) mem (b.compareUnaligned pAligned qAligned p q n)
      (difference mem p q n) := by
  have hpos := b.wordSize_pos
  have hin (j : ℕ) (hj : j < n) : InRanges p q n (p + j) ∧ InRanges p q n (q + j) :=
    ⟨.inl ⟨by omega, by omega⟩, .inr ⟨by omega, by omega⟩⟩
  -- the aligned word with the first byte of an operand, read ahead if the operand is not aligned
  have hfirst {a : ℕ} {aligned : Bool} (ha : InRanges p q n a) (hal : aligned = true ↔
      a % b.wordSize = 0) :
      ∃ cur, Inspects b.wordSize (InRanges p q n) mem
        (b.firstWord aligned (a - a % b.wordSize * 8 / 8)) cur ∧
        Operand b mem aligned a 0 (a - a % b.wordSize * 8 / 8) cur := by
    have hlt : a % b.wordSize < b.wordSize := Nat.mod_lt _ hpos
    have hbase : (a - a % b.wordSize) % b.wordSize = 0 :=
      Nat.sub_mod_eq_zero_of_mod_eq (Nat.mod_mod _ _).symm
    rw [Nat.mul_div_cancel _ (by decide)]
    cases aligned with
    | true => exact ⟨0, .pure _, hal, by rw [Nat.zero_mul, Nat.add_zero], nofun⟩
    | false =>
      exact ⟨_, .load (Access.ok_of_word rfl hbase ha (by omega) (by omega)), hal,
        by rw [Nat.zero_mul, Nat.add_zero], fun _ => rfl⟩
  obtain ⟨pc, hloadp, hopp⟩ := hfirst (a := p) (hin 0 hn).1 hp
  obtain ⟨qc, hloadq, hopq⟩ := hfirst (a := q) (hin 0 hn).2 hq
  have hwords : n / b.wordSize * b.wordSize + n % b.wordSize = n := Nat.div_add_mod' _ _
  have hdone : n - n % b.wordSize = (0 + n / b.wordSize) * b.wordSize := by rw [Nat.zero_add]; omega
  have hbytes : Inspects b.wordSize (InRanges p q n) mem
      (compareBytes p q ((0 + n / b.wordSize) * b.wordSize) (n - (0 + n / b.wordSize) * b.wordSize))
      (difference mem (p + (0 + n / b.wordSize) * b.wordSize) (q + (0 + n / b.wordSize) * b.wordSize)
        (n - (0 + n / b.wordSize) * b.wordSize)) := by
    refine compareBytes_inspects fun j hj => ?_
    rw [Nat.add_assoc, Nat.add_assoc]
    exact ⟨Access.load_byte_ok (hin _ (by omega)).1, Access.load_byte_ok (hin _ (by omega)).2⟩
  have hloop := compareRelaned_inspects hopp hopq (fun j hj => hin j (by omega)) hbytes
  rw [Nat.zero_mul, Nat.add_zero, Nat.add_zero, ← hdone,
    show n / b.wordSize * b.wordSize + (n - (n - n % b.wordSize)) = n by
    omega] at hloop
  exact hloadp.bind (hloadq.bind hloop)

/-- **`memcmp` returns the first difference**, and reads only words that hold a byte of the
operands. -/
theorem memcmp_inspects :
    Inspects b.wordSize (InRanges p q n) mem (b.memcmp p q n) (difference mem p q n) := by
  have hpos := b.wordSize_pos
  have hin (j : ℕ) (hj : j < n) : InRanges p q n (p + j) ∧ InRanges p q n (q + j) :=
    ⟨.inl ⟨by omega, by omega⟩, .inr ⟨by omega, by omega⟩⟩
  rw [memcmp]
  split_ifs with haligned h32 h20 hshort hp hq
  · obtain ⟨hp, hq⟩ := (b.or_mod_wordSize p q).mp haligned
    subst h32
    have h := @compareWords_inspects b mem (InRanges p q 32) b.wordSize p q (pure 0) 0 b.n32 0 hp hq
      (fun j hj => hin j (by rwa [Nat.zero_add, n32_mul] at hj)) (.pure _)
    rwa [Nat.zero_mul, n32_mul] at h
  · obtain ⟨hp, hq⟩ := (b.or_mod_wordSize p q).mp haligned
    subst h20
    have h16 : 16 / b.wordSize * b.wordSize = 16 := by rcases b.wordSize_eq with h | h <;> rw [h]
    have hmod (a : ℕ) (ha : a % b.wordSize = 0) : (a + 16) % 4 = 0 := by
      rcases b.wordSize_eq with h | h <;> rw [h] at ha <;> omega
    have hhalf : Inspects b.wordSize (InRanges p q 20) mem (compareHalf (p + 16) (q + 16))
        (difference mem (p + 16) (q + 16) 4) :=
      inspects_words (n := 0) (by decide) (hmod p hp) (hmod q hq)
        (fun j hj => by rw [Nat.add_assoc, Nat.add_assoc]; exact hin _ (by omega)) (.pure _)
    have h :=
      @compareWords_inspects b mem (InRanges p q 20) b.wordSize p q (compareHalf (p + 16) (q + 16)) 0
      (16 / b.wordSize) 4 hp hq (fun j hj => hin j (by rw [Nat.zero_add, h16] at hj; omega))
      (by rwa [Nat.zero_add, h16])
    rwa [Nat.zero_mul, h16] at h
  · obtain ⟨hp, hq⟩ := (b.or_mod_wordSize p q).mp haligned
    have hwords : n / b.wordSize * b.wordSize + n % b.wordSize = n := Nat.div_add_mod' _ _
    have hmasked := @compareMasked_inspects b mem (InRanges p q n) (p + n / b.wordSize * b.wordSize)
      (q + n / b.wordSize * b.wordSize) (n % b.wordSize) (aligned_add hp _) (aligned_add hq _)
      (Nat.mod_lt _ hpos)
      fun hrest => hin _ (by omega)
    have h := @compareWords_inspects b mem (InRanges p q n) b.wordSize p q _ 0 (n / b.wordSize)
      (n % b.wordSize) hp hq
      (fun j hj => hin j (by rw [Nat.zero_add] at hj; omega)) (by rw [Nat.zero_add]; exact hmasked)
    rwa [Nat.zero_mul, hwords] at h
  · have h := @compareBytes_inspects mem (InRanges p q n) b.wordSize p q n 0 fun j hj =>
      ⟨Access.load_byte_ok (hin j hj).1, Access.load_byte_ok (hin j hj).2⟩
    exact h
  · have hq : q % b.wordSize ≠ 0 := fun hq => haligned ((b.or_mod_wordSize p q).mpr ⟨hp, hq⟩)
    exact compareUnaligned_inspects (by simpa using hp) (by simpa using hq) (by omega)
  · exact compareUnaligned_inspects (by simpa using hp) (by simpa using hq) (by omega)
  · exact compareUnaligned_inspects (by simpa using hp) (by simpa using hq) (by omega)

end Compare

/-! ## Both functions -/

/-- **`memcmp` and `memset` are right and word-safe.**  For either word size, with or without block
copies, at any alignment and for any size: `memcmp` returns a number that is negative, zero or
positive as the first range is lexicographically before, equal to or after the second, changes
nothing, and only loads, from words that hold a byte of the ranges; `memset` returns the destination
with its `k` bytes set, every other byte of memory as before, and every access naturally aligned and
in a word that holds a byte of the range, or in the zero block. -/
theorem memcmp_memset_correct (b : Build) (m : Machine) (p q n : ℕ) (zeros32 dest : ℕ)
    (c : BitVec 32) (k : ℕ)
    (hdest : dest + k ≤ 2 ^ b.addrBits) (hzeros : b.block32 = true → ZeroObject b zeros32 dest k m) :
    (∃ r new, b.memcmp p q n m = some (r, ⟨m.mem, m.log ++ new⟩) ∧
      (r < 0 ↔ m.mem.bytes p n < m.mem.bytes q n) ∧ (r = 0 ↔ m.mem.bytes p n = m.mem.bytes q n) ∧
      (0 < r ↔ m.mem.bytes q n < m.mem.bytes p n) ∧
      ∀ acc ∈ new, acc.Ok b.wordSize (InRanges p q n) ∧ ∃ size addr, acc = .load size addr) ∧
    ∃ m', b.memset zeros32 dest c k m = some (dest, m') ∧
      WordSafeFill b zeros32 dest (UInt8.ofBitVec (c.setWidth 8)) k m m' := by
  constructor
  · obtain ⟨new, hrun, hok⟩ := @memcmp_inspects b m.mem p q n m.log
    refine ⟨_, new, hrun, difference_lt_iff, difference_eq_iff, ?_, hok⟩
    rw [← difference_lt_iff, difference_swap, Left.neg_pos_iff]
  · exact memset_wordSafe hdest hzeros

/-- Memory of zeros with a one at 80. -/
def marked : Machine := ⟨fun x => if x = 80 then 1 else 0, []⟩

/-- The theorem at ranges of 41 bytes out of phase, of which the first has the one, and at a fill of
300 zeros through the zero block at 1024. -/
theorem memcmp_memset_correct_marked :
    (airbender.memcmp 66 107 41 marked).map (·.1) = some 1 ∧
    (∃ r new, airbender.memcmp 66 107 41 marked = some (r, ⟨marked.mem, marked.log ++ new⟩) ∧
      (r < 0 ↔ marked.mem.bytes 66 41 < marked.mem.bytes 107 41) ∧
      (r = 0 ↔ marked.mem.bytes 66 41 = marked.mem.bytes 107 41) ∧
      (0 < r ↔ marked.mem.bytes 107 41 < marked.mem.bytes 66 41) ∧
      ∀ acc ∈ new, acc.Ok 4 (InRanges 66 107 41) ∧ ∃ size addr, acc = .load size addr) ∧
    ∃ m', airbender.memset 1024 67 0x100#32 300 marked = some (67, m') ∧
      WordSafeFill airbender 1024 67 0 300 marked m' :=
  ⟨by decide +kernel, memcmp_memset_correct airbender marked 66 107 41 1024 67 0x100#32 300
    (by decide) fun _ =>
    ⟨by decide, by decide, fun i hi => by omega, fun i hi => if_neg (by omega)⟩⟩

end Build
end Zilkworm.Guest
