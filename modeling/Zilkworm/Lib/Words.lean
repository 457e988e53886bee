/-
# Machine words over bytes

A little-endian machine of `k`-byte words: a word is read from `k` bytes and stored as `k` bytes.
Copying to a place that is not aligned shifts two words together, so that the word stored holds the
high bytes of one word and the low bytes of the next (`wordBytes_relane`).  A part of a word is
stored under a mask, which keeps the other bytes (`byteOf_lowMask`, `byteOf_keepLow`,
`byteOf_keepHigh`).
-/
import Zilkworm.Lib.Bytes

namespace Zilkworm.Lib

open List

variable {b : Bytes} {j p : ℕ}

theorem leNat_take (b : Bytes) (j : ℕ) : leNat (b.take j) = leNat b % 256 ^ j := by
  rcases Nat.lt_or_ge b.length j with h | h
  · have hlt := leNat_lt b
    have hpow : 256 ^ b.length ≤ 256 ^ j := Nat.pow_le_pow_right (by decide) h.le
    rw [take_of_length_le h.le, Nat.mod_eq_of_lt (by omega)]
  · have hlen : (b.take j).length = j := length_take_of_le h
    have hlt := leNat_lt (b.take j)
    rw [hlen] at hlt
    conv_rhs => rw [← take_append_drop j b, leNat_append, hlen]
    rw [Nat.add_mul_mod_self_left, Nat.mod_eq_of_lt hlt]

theorem leNat_drop (b : Bytes) (j : ℕ) : leNat (b.drop j) = leNat b / 256 ^ j := by
  rcases Nat.lt_or_ge b.length j with h | h
  · have hlt := leNat_lt b
    have hpow : 256 ^ b.length ≤ 256 ^ j := Nat.pow_le_pow_right (by decide) h.le
    rw [drop_eq_nil_of_le h.le, Nat.div_eq_of_lt (by omega)]
    rfl
  · have hlen : (b.take j).length = j := length_take_of_le h
    have hlt := leNat_lt (b.take j)
    rw [hlen] at hlt
    conv_rhs => rw [← take_append_drop j b, leNat_append, hlen]
    rw [Nat.add_mul_div_left _ _ (by positivity), Nat.div_eq_of_lt hlt, Nat.zero_add]

/-- The bytes of a value read from `k` bytes are these bytes. -/
theorem toLe_leNat {k : ℕ} (h : b.length = k) : toLe k (leNat b) = b := by
  induction k generalizing b with
  | zero => rw [eq_nil_of_length_eq_zero h]; rfl
  | succ k ih =>
    obtain ⟨x, b, rfl⟩ := exists_cons_of_length_eq_add_one h
    have hx : (x.toNat + 256 * leNat b) % 256 = x.toNat := by
      have := x.toNat_lt
      omega
    have hb : (x.toNat + 256 * leNat b) / 256 = leNat b := by
      have := x.toNat_lt
      omega
    have hbyte : UInt8.ofNat (x.toNat + 256 * leNat b) = x := by
      rw [← UInt8.toNat_inj, UInt8.toNat_ofNat', hx]
    rw [leNat, toLe, hb, ih (by simpa using h), hbyte]

theorem toLe_add (j k n : ℕ) : toLe (j + k) n = toLe j n ++ toLe k (n / 256 ^ j) := by
  induction j generalizing n with
  | zero => simp [toLe]
  | succ j ih =>
    rw [Nat.add_right_comm, toLe, toLe, ih, cons_append, Nat.div_div_eq_div_mul,
      Nat.pow_succ, Nat.mul_comm 256]

theorem toLe_mod (k n : ℕ) : toLe k (n % 256 ^ k) = toLe k n := by
  rw [← leNat_toLe, toLe_leNat (toLe_length k n)]

/-- The bytes of a number from its highest one down are its compact form. -/
theorem reverse_toLe_length (n : ℕ) : (toLe (toBigCompact n).length n).reverse = toBigCompact n := by
  have h := toLe_leNat (@List.length_reverse _ (toBigCompact n))
  rw [show leNat (toBigCompact n).reverse = n from beNat_toBigCompact n] at h
  rw [h, reverse_reverse]

theorem length_toBigCompact {k n : ℕ} (hlo : 256 ^ k ≤ n) (hhi : n < 256 ^ (k + 1)) :
    (toBigCompact n).length = k + 1 := by
  have hle := toBigCompact_length hhi
  have hlt := beNat_lt (toBigCompact n)
  rw [beNat_toBigCompact] at hlt
  have := (Nat.pow_lt_pow_iff_right (by decide : 1 < 256)).mp (hlo.trans_lt hlt)
  omega

variable {k : ℕ}

/-- The word that `k` bytes hold. -/
def wordOf (k : ℕ) (b : Bytes) : BitVec (8 * k) := BitVec.ofNat (8 * k) (leNat b)

/-- The bytes of a word as they are stored. -/
def wordBytes (w : BitVec (8 * k)) : Bytes := toLe k w.toNat

@[simp] theorem wordBytes_length (w : BitVec (8 * k)) : (wordBytes w).length = k := toLe_length k _

theorem leNat_wordBytes (w : BitVec (8 * k)) : leNat (wordBytes w) = w.toNat := by
  have := w.isLt
  rw [Nat.pow_mul] at this
  rw [wordBytes, leNat_toLe, Nat.mod_eq_of_lt this]

theorem toNat_wordOf (h : b.length = k) : (wordOf k b).toNat = leNat b := by
  have := leNat_lt b
  rw [h] at this
  rw [wordOf, BitVec.toNat_ofNat, Nat.pow_mul, Nat.mod_eq_of_lt this]

@[simp] theorem wordBytes_wordOf (h : b.length = k) : wordBytes (wordOf k b) = b := by
  rw [wordBytes, toNat_wordOf h, toLe_leNat h]

/-- The 32-bit word `i` of a byte string. -/
def word32 (b : Bytes) (i : ℕ) : BitVec (8 * 4) := wordOf 4 (slice b (4 * i) 4)

theorem wordBytes_word32 {i : ℕ} (h : 4 * i + 4 ≤ b.length) :
    wordBytes (word32 b i) = slice b (4 * i) 4 := wordBytes_wordOf (slice_length_of_le h)

theorem drop_word32 (b : Bytes) (i : ℕ) :
    b.drop (4 * i) = slice b (4 * i) 4 ++ b.drop (4 * (i + 1)) := by
  rw [Nat.mul_succ, ← drop_drop, slice, take_append_drop]

/-- **Two words shifted together** hold the high bytes of the first and the low bytes of the
second. -/
theorem wordBytes_relane (a b : BitVec (8 * k)) (hj : j ≤ k) :
    wordBytes ((a >>> (8 * j)) ||| (b <<< (8 * (k - j)))) =
      (wordBytes a).drop j ++ (wordBytes b).take j := by
  have hlen : ((wordBytes a).drop j ++ (wordBytes b).take j).length = k := by
    rw [length_append, length_drop, length_take, wordBytes_length, wordBytes_length]
    omega
  rw [← toLe_leNat hlen, wordBytes]
  congr 1
  rw [leNat_append, leNat_drop, leNat_take, leNat_wordBytes, leNat_wordBytes, length_drop,
    wordBytes_length, BitVec.toNat_or, BitVec.toNat_ushiftRight, BitVec.toNat_shiftLeft]
  have hlow : a.toNat >>> (8 * j) < 2 ^ (8 * (k - j)) := by
    rw [Nat.shiftRight_eq_div_pow, Nat.div_lt_iff_lt_mul (by positivity), ← Nat.pow_add,
      show 8 * (k - j) + 8 * j = 8 * k by omega]
    exact a.isLt
  have hhigh : b.toNat <<< (8 * (k - j)) % 2 ^ (8 * k) = (b.toNat % 2 ^ (8 * j)) <<< (8 * (k - j)) := by
    have hpow : 2 ^ (8 * k) = 2 ^ (8 * j) * 2 ^ (8 * (k - j)) := by
      rw [← Nat.pow_add]
      congr 1
      omega
    rw [Nat.shiftLeft_eq, Nat.shiftLeft_eq, hpow, Nat.mul_mod_mul_right]
  rw [hhigh, Nat.or_comm, ← Nat.shiftLeft_add_eq_or_of_lt hlow, Nat.shiftLeft_eq,
    Nat.shiftRight_eq_div_pow, Nat.pow_mul, Nat.pow_mul, Nat.add_comm, Nat.mul_comm (_ % _)]

/-! ## Single bytes of a word -/

/-- The byte `j` of a word. -/
def byteOf (w : BitVec (8 * k)) (j : ℕ) : UInt8 := UInt8.ofNat (w.toNat >>> (8 * j))

theorem testBit_byteOf (w : BitVec (8 * k)) (j : ℕ) {i : ℕ} (hi : i < 8) :
    (byteOf w j).toNat.testBit i = w.getLsbD (8 * j + i) := by
  rw [byteOf, UInt8.toNat_ofNat', Nat.testBit_mod_two_pow, Nat.testBit_shiftRight,
    decide_eq_true hi, Bool.true_and, BitVec.getLsbD]

/-- Two bytes are equal if their bits are. -/
theorem byte_ext {x y : UInt8} (h : ∀ i < 8, x.toNat.testBit i = y.toNat.testBit i) : x = y := by
  refine UInt8.toNat_inj.mp (Nat.eq_of_testBit_eq fun i => ?_)
  rcases Nat.lt_or_ge i 8 with hi | hi
  · exact h i hi
  · have hpow : 2 ^ 8 ≤ 2 ^ i := Nat.pow_le_pow_right (by decide) hi
    rw [Nat.testBit_lt_two_pow (x.toNat_lt.trans_le hpow),
      Nat.testBit_lt_two_pow (y.toNat_lt.trans_le hpow)]

/-- Two words are equal if their bytes are. -/
theorem eq_of_byteOf {x y : BitVec (8 * k)} (h : ∀ j < k, byteOf x j = byteOf y j) : x = y := by
  refine BitVec.eq_of_getLsbD_eq fun t ht => ?_
  have hbit := congrArg (fun u : UInt8 => u.toNat.testBit (t % 8)) (h (t / 8) (by omega))
  rwa [testBit_byteOf _ _ (by omega), testBit_byteOf _ _ (by omega), Nat.div_add_mod] at hbit

theorem byteOf_wordOf (h : b.length = k) (hj : j < b.length) : byteOf (wordOf k b) j = b[j] := by
  have hdrop : leNat (b.drop j) = b[j].toNat + 256 * leNat (b.drop (j + 1)) := by
    rw [drop_eq_getElem_cons hj, leNat]
  rw [byteOf, toNat_wordOf h, Nat.shiftRight_eq_div_pow, Nat.pow_mul, ← leNat_drop, hdrop,
    ← UInt8.toNat_inj, UInt8.toNat_ofNat']
  have := b[j].toNat_lt
  omega

/-- Two words shifted together hold the high bytes of the first and the low bytes of the second. -/
theorem byteOf_relane (a b : BitVec (8 * k)) (hp : p ≤ k) (hj : j < k) :
    byteOf ((a >>> (8 * p)) ||| (b <<< (8 * (k - p)))) j =
      if j + p < k then byteOf a (j + p) else byteOf b (j + p - k) := by
  refine byte_ext fun i hi => ?_
  rw [testBit_byteOf _ _ hi, BitVec.getLsbD_or, BitVec.getLsbD_ushiftRight, BitVec.getLsbD_shiftLeft]
  split_ifs with h
  · have h1 : 8 * j + i < 8 * (k - p) := by omega
    have h2 : 8 * p + (8 * j + i) = 8 * (j + p) + i := by omega
    rw [testBit_byteOf _ _ hi, h2, decide_eq_true h1]
    simp
  · have h1 : ¬ 8 * j + i < 8 * (k - p) := by omega
    have h2 : 8 * j + i - 8 * (k - p) = 8 * (j + p - k) + i := by omega
    have h3 : 8 * j + i < 8 * k := by omega
    have h4 : 8 * k ≤ 8 * p + (8 * j + i) := by omega
    rw [testBit_byteOf _ _ hi, h2, BitVec.getLsbD_of_ge _ _ h4, decide_eq_false h1, decide_eq_true h3]
    simp

/-- The mask of the low bytes. -/
theorem getLsbD_lowMask {len t : ℕ} (hlen : len < k) :
    ((1#(8 * k) <<< (8 * len)) - 1#(8 * k)).getLsbD t = decide (t < 8 * len) := by
  have hlt : 2 ^ (8 * len) < 2 ^ (8 * k) := Nat.pow_lt_pow_right (by decide) (by omega)
  have hpos : 0 < 2 ^ (8 * len) := by positivity
  have hone : 1 % 2 ^ (8 * k) = 1 := Nat.mod_eq_of_lt (by omega)
  have hval : ((1#(8 * k) <<< (8 * len)) - 1#(8 * k)).toNat = 2 ^ (8 * len) - 1 := by
    have hshift : (1#(8 * k) <<< (8 * len)).toNat = 2 ^ (8 * len) := by
      rw [BitVec.toNat_shiftLeft, BitVec.toNat_ofNat, hone, Nat.one_shiftLeft, Nat.mod_eq_of_lt hlt]
    have hle : 1#(8 * k) ≤ 1#(8 * k) <<< (8 * len) := by
      rw [BitVec.le_def, hshift, BitVec.toNat_ofNat, hone]
      omega
    rw [BitVec.toNat_sub_of_le hle, hshift, BitVec.toNat_ofNat, hone]
  rw [BitVec.getLsbD, hval, Nat.testBit_two_pow_sub_one]

/-- A store under the mask of the low `len` bytes keeps the others. -/
theorem byteOf_lowMask (x v : BitVec (8 * k)) {len : ℕ} (hlen : len < k) (hj : j < k) :
    byteOf ((x &&& ~~~((1#(8 * k) <<< (8 * len)) - 1#(8 * k))) |||
      (v &&& ((1#(8 * k) <<< (8 * len)) - 1#(8 * k)))) j =
        if j < len then byteOf v j else byteOf x j := by
  refine byte_ext fun i hi => ?_
  have ht : 8 * j + i < 8 * k := by omega
  rw [testBit_byteOf _ _ hi, BitVec.getLsbD_or, BitVec.getLsbD_and, BitVec.getLsbD_and,
    BitVec.getLsbD_not, getLsbD_lowMask hlen, decide_eq_true ht]
  split_ifs with h
  · have h1 : 8 * j + i < 8 * len := by omega
    rw [testBit_byteOf _ _ hi, decide_eq_true h1]
    simp
  · have h1 : ¬ 8 * j + i < 8 * len := by omega
    rw [testBit_byteOf _ _ hi, decide_eq_false h1]
    simp

/-- The mask of the high bytes. -/
theorem getLsbD_highMask {t : ℕ} (ht : t < 8 * k) :
    (~~~(0#(8 * k)) <<< (8 * p)).getLsbD t = decide (8 * p ≤ t) := by
  rw [BitVec.getLsbD_shiftLeft, decide_eq_true ht, Bool.true_and, BitVec.getLsbD_not,
    BitVec.getLsbD_zero, decide_eq_true (show t - 8 * p < 8 * k by omega)]
  by_cases h : t < 8 * p
  · simp [h]
  · simp [h, Nat.le_of_not_lt h]

/-- A word shifted into the high bytes, the low ones kept. -/
theorem byteOf_keepLow (x v : BitVec (8 * k)) (hj : j < k) :
    byteOf ((x &&& ~~~(~~~(0#(8 * k)) <<< (8 * p))) ||| (v <<< (8 * p))) j =
      if j < p then byteOf x j else byteOf v (j - p) := by
  refine byte_ext fun i hi => ?_
  have ht : 8 * j + i < 8 * k := by omega
  rw [testBit_byteOf _ _ hi, BitVec.getLsbD_or, BitVec.getLsbD_and, BitVec.getLsbD_not,
    getLsbD_highMask ht, BitVec.getLsbD_shiftLeft, decide_eq_true ht]
  split_ifs with h
  · have h1 : 8 * j + i < 8 * p := by omega
    rw [testBit_byteOf _ _ hi, decide_eq_true h1, decide_eq_false (by omega)]
    simp
  · have h1 : ¬ 8 * j + i < 8 * p := by omega
    have h2 : 8 * j + i - 8 * p = 8 * (j - p) + i := by omega
    rw [testBit_byteOf _ _ hi, decide_eq_false h1, decide_eq_true (by omega), h2]
    simp

/-- A word shifted into the low bytes, the high ones kept. -/
theorem byteOf_keepHigh (x v : BitVec (8 * k)) (hp : p ≤ k) (hj : j < k) :
    byteOf ((x &&& (~~~(0#(8 * k)) <<< (8 * p))) ||| (v >>> (8 * (k - p)))) j =
      if j < p then byteOf v (j + (k - p)) else byteOf x j := by
  refine byte_ext fun i hi => ?_
  have ht : 8 * j + i < 8 * k := by omega
  rw [testBit_byteOf _ _ hi, BitVec.getLsbD_or, BitVec.getLsbD_and, getLsbD_highMask ht,
    BitVec.getLsbD_ushiftRight]
  split_ifs with h
  · have h2 : 8 * (k - p) + (8 * j + i) = 8 * (j + (k - p)) + i := by omega
    rw [testBit_byteOf _ _ hi, decide_eq_false (by omega), h2]
    simp
  · have h4 : 8 * k ≤ 8 * (k - p) + (8 * j + i) := by omega
    rw [testBit_byteOf _ _ hi, decide_eq_true (by omega), BitVec.getLsbD_of_ge _ _ h4]
    simp

/-- A store of the high bytes under their mask keeps the low ones. -/
theorem byteOf_highMask (x v : BitVec (8 * k)) (hj : j < k) :
    byteOf ((x &&& ~~~(~~~(0#(8 * k)) <<< (8 * p))) ||| (v &&& (~~~(0#(8 * k)) <<< (8 * p)))) j =
      if j < p then byteOf x j else byteOf v j := by
  refine byte_ext fun i hi => ?_
  have ht : 8 * j + i < 8 * k := by omega
  rw [testBit_byteOf _ _ hi, BitVec.getLsbD_or, BitVec.getLsbD_and, BitVec.getLsbD_and,
    BitVec.getLsbD_not, getLsbD_highMask ht, decide_eq_true ht]
  split_ifs with h
  · rw [testBit_byteOf _ _ hi, decide_eq_false (by omega)]
    simp
  · rw [testBit_byteOf _ _ hi, decide_eq_true (by omega)]
    simp

theorem leNat_replicate (c : UInt8) (k : ℕ) : 255 * leNat (replicate k c) = c.toNat * (256 ^ k - 1) := by
  induction k with
  | zero => rfl
  | succ k ih =>
    have hpos : 0 < 256 ^ k := by positivity
    have hsplit : 256 ^ (k + 1) - 1 = 255 + 256 * (256 ^ k - 1) := by rw [Nat.pow_succ]; omega
    rw [replicate_succ, leNat, Nat.mul_add, Nat.mul_left_comm, ih, hsplit]
    ring

/-- A byte times the word `0x01…01` is the byte repeated. -/
theorem byteOf_repeat (c : BitVec 8) (hj : j < k) :
    byteOf (c.setWidth (8 * k) * (BitVec.allOnes (8 * k) / 0xff#(8 * k))) j = UInt8.ofBitVec c := by
  have hpow : 256 ^ 1 ≤ 256 ^ k := Nat.pow_le_pow_right (by decide) (by omega)
  have hones : (BitVec.allOnes (8 * k) / 0xff#(8 * k)).toNat = leNat (replicate k 1) := by
    have h := leNat_replicate 1 k
    rw [BitVec.toNat_udiv, BitVec.toNat_allOnes, BitVec.toNat_ofNat, Nat.pow_mul,
      Nat.mod_eq_of_lt (show 0xff < (2 ^ 8) ^ k from lt_of_lt_of_le (by decide) hpow)]
    refine Nat.div_eq_of_eq_mul_right (by decide) ?_
    rw [h]
    exact (Nat.one_mul _).symm
  have hword : c.setWidth (8 * k) * (BitVec.allOnes (8 * k) / 0xff#(8 * k)) =
      wordOf k (replicate k (UInt8.ofBitVec c)) := by
    refine BitVec.eq_of_toNat_eq ?_
    have hlen : (replicate k (UInt8.ofBitVec c)).length = k := length_replicate
    have hlt := leNat_lt (replicate k (UInt8.ofBitVec c))
    have hc : (c.setWidth (8 * k)).toNat = c.toNat := by
      rw [BitVec.toNat_setWidth, Nat.pow_mul, Nat.mod_eq_of_lt (c.isLt.trans_le hpow)]
    have h1 := leNat_replicate 1 k
    have h2 := leNat_replicate (UInt8.ofBitVec c) k
    have hprod : c.toNat * leNat (replicate k 1) = leNat (replicate k (UInt8.ofBitVec c)) := by
      refine Nat.eq_of_mul_eq_mul_left (show 0 < 255 by decide) ?_
      rw [Nat.mul_left_comm, h1, h2]
      exact congrArg _ (Nat.one_mul _)
    rw [hlen] at hlt
    rw [BitVec.toNat_mul, hc, hones, hprod, toNat_wordOf hlen, Nat.pow_mul, Nat.mod_eq_of_lt hlt]
  rw [hword, byteOf_wordOf length_replicate (by simpa using hj), getElem_replicate]

end Zilkworm.Lib
