/-
# `memset` of the guests

`prover/guest_common/src/mem_builtins.cpp`: a fill of `n` bytes in aligned machine words.  Whole
words are stored by a jump into a run of stores, by a loop, or, for zeros where there are block
copies, as copies of the block `zeros32`; the first and the last word are stored under a mask, and a
short fill that is not aligned is made byte by byte.

Every piece fills its part of the range (`Filling`) with the byte, as long as `zeros32` is zero; the
fill never touches that block, so it stays zero throughout (`memset_correct`).
-/
import Zilkworm.Guest.MemCopy

namespace Zilkworm.Guest

open List

namespace Build

open Lib

variable (b : Build)

/-! ## The model -/

/-- The cases `k`, `k - 1`, …, 1 of `fill_words_upto`. -/
def fillWordsRun (max d : ℕ) (v : b.Word) : ℕ → Exec Unit
  | 0 => pure ()
  | k + 1 => do
    if k + 1 ≤ max then store (d + k * b.wordSize) v
    fillWordsRun max d v k

/-- `fill_words_upto`. -/
def fillWordsUpto (max d : ℕ) (v : b.Word) (words : ℕ) : Exec Unit :=
  if words ≤ 64 then b.fillWordsRun max d v words else unreachable

/-- `FILL_RUN_WORDS`. -/
def fillRunWords : ℕ := 256 / b.wordSize

/-- `fill_n`. -/
def fillN (d : ℕ) (v : b.Word) (n : ℕ) : Exec Unit := b.storeWords d 0 (replicate n v)

/-- The loop of `fill_words`: 16 words a round. -/
def fillWordsLoop (v : b.Word) : ℕ → ℕ → Exec ℕ
  | 0, d => pure d
  | rounds + 1, d => do
    b.fillN d v 16
    fillWordsLoop v rounds (d + 16 * b.wordSize)

/-- The loop of `fill_words` over zero blocks: 16 blocks a round. -/
def zeroBlocksLoop (zeros32 : ℕ) : ℕ → ℕ → Exec ℕ
  | 0, d => pure d
  | i + 1, d => do
    b.blocksUpto 16 0 d zeros32 16
    zeroBlocksLoop zeros32 i (d + 16 * 32)

/-- The zeros of `fill_words`: words up to a 32-byte boundary, blocks copied from the zero block,
words. -/
def fillZeros (zeros32 d words : ℕ) : Exec Unit := do
  let lead := ((2 ^ b.addrBits - d) % 32) / b.wordSize
  b.fillWordsUpto (b.n32 - 1) d 0 lead
  let words := words - lead
  let blocks := words / b.n32
  let d ← b.zeroBlocksLoop zeros32 (blocks / 16) (d + lead * b.wordSize)
  b.blocksUpto 15 0 d zeros32 (blocks % 16)
  b.fillWordsUpto (b.n32 - 1) (d + blocks % 16 * 32) 0 (words % b.n32)

/-- `fill_words`. -/
def fillWords (zeros32 d : ℕ) (v : b.Word) (words : ℕ) : Exec Unit :=
  if words ≤ b.fillRunWords then b.fillWordsUpto b.fillRunWords d v words
  else if b.block32 ∧ v = 0 then b.fillZeros zeros32 d words
  else do
    let d ← b.fillWordsLoop v (words / 16) d
    b.fillWordsUpto 15 d v (words % 16)

/-- `fill_partial`: the low `len` bytes of `v`, as `scatter_aligned` stores them. -/
def fillPartial (d : ℕ) (v : b.Word) (len : ℕ) : Exec Unit := b.scatterAligned d v len

/-- `if (rest != 0) fill_partial(dw, v, rest)`. -/
def fillRest (d : ℕ) (v : b.Word) (rest : ℕ) : Exec Unit :=
  if rest ≠ 0 then b.fillPartial d v rest else pure ()

/-- The bytes of a short fill that is not aligned. -/
def fillBytes (d : ℕ) (v : b.Word) (i : ℕ) : ℕ → Exec Unit
  | 0 => pure ()
  | n + 1 => do
    store (k := 1) (d + i) (v.setWidth 8)
    fillBytes d v (i + 1) n

/-- `fill`: `v`, a byte repeated across the word, to the `n` bytes at `d`. -/
def fill (zeros32 d : ℕ) (v : b.Word) (n : ℕ) : Exec Unit :=
  let phase := d % b.wordSize
  if phase = 0 then
    if n = 32 then b.fillN d v b.n32
    else if b.wordSize = 4 ∧ n = 64 then b.fillN d v 16
    else do
      let words := n / b.wordSize
      if words ≠ 0 then b.fillWords zeros32 d v words
      b.fillRest (d + words * b.wordSize) v (n % b.wordSize)
  else if n < 16 then b.fillBytes d v 0 n
  else do
    -- the top bytes of the first word, masked
    let dw := d - phase
    let headMask := ~~~(0#(8 * b.wordSize)) <<< (8 * phase)
    let w ← load b.wordSize dw
    store dw ((w &&& ~~~headMask) ||| (v &&& headMask))
    let dw := dw + b.wordSize
    let n := n - (b.wordSize - phase)
    let words := n / b.wordSize
    b.fillWords zeros32 dw v words
    b.fillRest (dw + words * b.wordSize) v (n % b.wordSize)

/-- `memset`. -/
def memset (zeros32 dest : ℕ) (c : BitVec 32) (n : ℕ) : Exec ℕ := do
  if c.setWidth 8 ≠ 0 then
    b.fill zeros32 dest
      ((c.setWidth 8).setWidth (8 * b.wordSize) * (BitVec.allOnes (8 * b.wordSize) / 0xff#_)) n
  else b.fill zeros32 dest 0 n
  return dest

/-! ## Words -/

variable {b} {I : ByteMap → Prop} {P : ℕ → Prop} {d n zeros32 : ℕ} {v : b.Word} {c : UInt8}

/-- Each byte of the word is `c`. -/
def Repeats (v : b.Word) (c : UInt8) : Prop := ∀ j < b.wordSize, byteOf v j = c

theorem fillWordsRun_fills {max k : ℕ} (hv : Repeats v c) (hd : d % b.wordSize = 0) (hk : k ≤ max)
    (hfree : Fillable I P d (d + k * b.wordSize)) :
    Filling b.wordSize I P (fun _ => c) d (d + k * b.wordSize) (b.fillWordsRun max d v k) () := by
  induction k with
  | zero => rw [Nat.zero_mul]; exact .pure _ _
  | succ k ih =>
    have hstep : d + (k + 1) * b.wordSize =
        d + k * b.wordSize + b.wordSize := by rw [Nat.succ_mul, Nat.add_assoc]
    rw [hstep] at hfree ⊢
    rw [fillWordsRun, if_pos hk]
    have hstore : Filling b.wordSize I P (fun _ => c) (d + k * b.wordSize)
        (d + k * b.wordSize + b.wordSize)
        (store (d + k * b.wordSize) v) () :=
      .store (hfree.store_ok (aligned_add hd k) (by omega) le_rfl) hv
    exact hstore.seq_down (ih (by omega) (hfree.part le_rfl (by omega))) hfree (by omega) (by omega)

theorem fillWordsUpto_fills {max words : ℕ} (hv : Repeats v c) (hd : d % b.wordSize = 0)
    (hwords : words ≤ max) (hmax : max ≤ 64) (hfree : Fillable I P d (d + words * b.wordSize)) :
    Filling b.wordSize I P (fun _ => c) d (d + words * b.wordSize)
      (b.fillWordsUpto max d v words) () := by
  rw [fillWordsUpto, if_pos (hwords.trans hmax)]
  exact fillWordsRun_fills hv hd hwords hfree

theorem fillN_fills {k : ℕ} (hv : Repeats v c) (hd : d % b.wordSize = 0)
    (hfree : Fillable I P d (d + k * b.wordSize)) :
    Filling b.wordSize I P (fun _ => c) d (d + k * b.wordSize) (b.fillN d v k) () := by
  intro m _
  obtain ⟨m', hrun, hfills⟩ := @storeWords_fills b P (fun _ => c) d 0 (replicate k v) m
    (fun t ht j hj => by rw [getElem_replicate]; exact hv j hj)
    (fun t ht => by
      rw [length_replicate] at ht
      have hend : (t + 1) * b.wordSize ≤ k * b.wordSize := Nat.mul_le_mul_right _ ht
      rw [Nat.succ_mul] at hend
      rw [Nat.zero_add]
      exact hfree.store_ok (aligned_add hd t) (by omega) (by omega))
  rw [length_replicate, Nat.zero_mul, Nat.zero_add, Nat.add_zero] at hfills
  exact ⟨m', hrun, hfills⟩

theorem fillWordsLoop_fills {rounds : ℕ} (hv : Repeats v c) (hd : d % b.wordSize = 0)
    (hfree : Fillable I P d (d + rounds * 16 * b.wordSize)) :
    Filling b.wordSize I P (fun _ => c) d (d + rounds * 16 * b.wordSize) (b.fillWordsLoop v rounds d)
      (d + rounds * 16 * b.wordSize) := by
  induction rounds generalizing d with
  | zero => rw [Nat.zero_mul 16, Nat.zero_mul]; exact .pure _ _
  | succ rounds ih =>
    have hstep : d + (rounds + 1) * 16 * b.wordSize =
        d + 16 * b.wordSize + rounds * 16 * b.wordSize := by ring
    rw [hstep] at hfree ⊢
    exact (fillN_fills hv hd (hfree.part le_rfl (by omega))).seq
      (ih (aligned_add hd 16) (hfree.part (by omega) le_rfl)) hfree (by omega) (by omega)

/-! ## Zero blocks -/

/-- The zero block: aligned and inside the address space, apart from what is filled, and known to be
zero. -/
structure ZeroBlock (b : Build) (I : ByteMap → Prop) (P : ℕ → Prop) (zeros32 lo hi : ℕ) : Prop where
  aligned : zeros32 % 32 = 0
  bounded : zeros32 + 32 ≤ 2 ^ b.addrBits
  apart : ∀ x, lo ≤ x → x < hi → x < zeros32 ∨ zeros32 + 32 ≤ x
  zero : ∀ mem, I mem → ∀ i < 32, mem (zeros32 + i) = 0
  accessible : ∀ i < 32, P (zeros32 + i)

theorem ZeroBlock.part {lo hi lo' hi' : ℕ} (h : ZeroBlock b I P zeros32 lo hi) (hlo : lo ≤ lo')
    (hhi : hi' ≤ hi) :
    ZeroBlock b I P zeros32 lo' hi' :=
  ⟨h.aligned, h.bounded, fun x hx hx' => h.apart x (by omega) (by omega), h.zero, h.accessible⟩

/-- A block copied from the zero block fills its place with zeros. -/
theorem copyBlock_fills (hz : ZeroBlock b I P zeros32 d (d + 32)) (hd : d % 32 = 0)
    (hfree : Fillable I P d (d + 32)) :
    Filling b.wordSize I P (fun _ => 0) d (d + 32) (copyBlock 32 d zeros32) () := by
  intro m hI
  refine ⟨_, rfl, fun x => ?_, [.block 32 d zeros32], rfl, fun acc hacc => ?_⟩
  · show m.mem.copy d zeros32 32 x = _
    unfold ByteMap.copy
    split_ifs with hx
    · exact hz.zero m.mem hI _ (by omega)
    · rfl
  · obtain rfl := mem_singleton.mp hacc
    refine ⟨fun q hq => ?_, fun q hq i hi => ?_, fun size dst src h => ?_⟩
    · simp only [Access.parts, mem_cons, not_mem_nil, or_false] at hq
      rcases hq with rfl | rfl
      · exact hd
      · exact hz.aligned
    · simp only [Access.parts, mem_cons, not_mem_nil, or_false] at hq
      rcases hq with rfl | rfl
      · exact ⟨d + i, hfree.accessible _ (by omega) (by dsimp only at hi; omega), rfl⟩
      · exact ⟨zeros32 + i, hz.accessible i hi, rfl⟩
    · cases h
      have := hz.apart d le_rfl (by omega)
      omega

theorem blocksRun_fills {max blocks k : ℕ} (hz : ZeroBlock b I P zeros32 d (d + blocks * 32))
    (hd : d % 32 = 0)
    (hk : k ≤ blocks) (hblocks : blocks ≤ max) (hmax : max ≤ 32) (hds : d + blocks * 32 ≤ 2 ^ b.addrBits)
    (hfree : Fillable I P d (d + blocks * 32)) :
    Filling b.wordSize I P (fun _ => 0) (d + (blocks - k) * 32) (d + blocks * 32)
      (b.blocksRun max 0 (b.runBase d blocks max 32) zeros32 k) () := by
  induction k with
  | zero => rw [Nat.sub_zero]; exact .pure _ _
  | succ k ih =>
    have hsource : b.offBase zeros32 ((max - (k + 1)) * 0 * b.wordSize) = zeros32 := by
      have := hz.bounded
      rw [Nat.mul_zero, Nat.zero_mul, offBase, Nat.add_zero, Nat.mod_eq_of_lt (by omega)]
    rw [blocksRun, Nat.mul_assoc _ b.n32, n32_mul,
      offBase_runBase (by omega) hk hblocks (by omega) (by decide) hds, hsource]
    have hnext : d + (blocks - k) * 32 = d + (blocks - (k + 1)) * 32 + 32 := by omega
    have hrest := ih (by omega)
    rw [hnext] at hrest
    exact (copyBlock_fills (hz.part (by omega) (by omega)) (by omega)
      (hfree.part (by omega) (by omega))).seq hrest
      (hfree.part (by omega) le_rfl) (by omega) (by omega)

theorem blocksUpto_fills {max blocks : ℕ} (hz : ZeroBlock b I P zeros32 d (d + blocks * 32))
    (hd : d % 32 = 0)
    (hblocks : blocks ≤ max) (hmax : max ≤ 32) (hds : d + blocks * 32 ≤ 2 ^ b.addrBits)
    (hfree : Fillable I P d (d + blocks * 32)) :
    Filling b.wordSize I P (fun _ => 0) d (d + blocks * 32)
      (b.blocksUpto max 0 d zeros32 blocks) () := by
  have h := blocksRun_fills hz hd le_rfl hblocks hmax hds hfree
  rw [Nat.sub_self, Nat.zero_mul, Nat.add_zero] at h
  rw [blocksUpto, if_pos hblocks, if_neg (by simp)]
  exact h

theorem zeroBlocksLoop_fills {rounds : ℕ} (hz : ZeroBlock b I P zeros32 d (d + rounds * 512))
    (hd : d % 32 = 0)
    (hds : d + rounds * 512 ≤ 2 ^ b.addrBits) (hfree : Fillable I P d (d + rounds * 512)) :
    Filling b.wordSize I P (fun _ => 0) d (d + rounds * 512) (b.zeroBlocksLoop zeros32 rounds d)
      (d + rounds * 512) := by
  induction rounds generalizing d with
  | zero => exact .pure _ _
  | succ rounds ih =>
    have hstep : d + (rounds + 1) * 512 = d + 16 * 32 + rounds * 512 := by omega
    rw [hstep] at hz hds hfree ⊢
    have hfirst :=
      @blocksUpto_fills b I P d zeros32 16 16 (hz.part le_rfl (by omega)) hd le_rfl (by decide)
      (le_trans (by omega) hds) (hfree.part le_rfl (by omega))
    exact hfirst.seq (ih (hz.part (by omega) le_rfl) (by omega) hds (hfree.part (by omega) le_rfl))
      hfree (by omega)
      (by omega)

theorem repeats_zero : Repeats (0 : b.Word) 0 := fun j _ => by simp [byteOf]

/-- The zeros of `fill_words`. -/
theorem fillZeros_fills {words : ℕ} (hz : ZeroBlock b I P zeros32 d (d + words * b.wordSize))
    (hd : d % b.wordSize = 0)
    (hwords : b.n32 ≤ words) (hds : d + words * b.wordSize ≤ 2 ^ b.addrBits)
    (hfree : Fillable I P d (d + words * b.wordSize)) :
    Filling b.wordSize I P (fun _ => 0) d (d + words * b.wordSize) (b.fillZeros zeros32 d words) () := by
  obtain ⟨haligned, hlead⟩ := @lead_spec b d hd (by omega)
  have hn32 : b.n32 ≤ 8 := by rcases b.wordSize_eq with h | h <;> simp [n32, h]
  have hword (x : ℕ) (hx : x % 32 = 0) : x % b.wordSize = 0 := by
    rcases b.wordSize_eq with h | h <;> rw [h] <;> omega
  rw [fillZeros]
  dsimp only
  generalize (2 ^ b.addrBits - d) % 32 / b.wordSize = lead at haligned hlead ⊢
  obtain ⟨rest, rfl⟩ := Nat.exists_eq_add_of_le (show lead ≤ words by omega)
  rw [Nat.add_mul] at hz hds hfree ⊢
  rw [Nat.add_sub_cancel_left]
  have hrest : rest * b.wordSize =
      rest / b.n32 / 16 * 512 + rest / b.n32 % 16 * 32 + rest % b.n32 * b.wordSize := by
    have hblocks : rest / b.n32 * 32 = rest / b.n32 / 16 * 512 + rest / b.n32 % 16 * 32 := by omega
    rw [← hblocks, ← b.n32_mul, ← Nat.mul_assoc, ← Nat.add_mul, Nat.div_add_mod']
  have hmod : rest % b.n32 ≤ b.n32 - 1 := by
    have := Nat.mod_lt rest b.n32_pos
    omega
  have hfirst := @fillWordsUpto_fills b I P d 0 0 (b.n32 - 1) lead repeats_zero hd hlead (by omega)
    (hfree.part le_rfl (by omega))
  rw [← Nat.add_assoc] at hz hds hfree ⊢
  rw [hrest] at hz hds hfree ⊢
  have hle : d ≤ d + lead * b.wordSize := Nat.le_add_right _ _
  have hpart : rest / b.n32 % 16 ≤ 15 := by omega
  generalize d + lead * b.wordSize = e at *
  generalize rest / b.n32 / 16 = rounds, rest / b.n32 % 16 = blocks, rest % b.n32 = left at *
  rw [← Nat.add_assoc, ← Nat.add_assoc] at hz hds hfree ⊢
  have hloop := @zeroBlocksLoop_fills b I P e zeros32 rounds (hz.part hle (by omega)) haligned (by omega)
    (hfree.part hle (by omega))
  have hblocks := @blocksUpto_fills b I P (e + rounds * 512) zeros32 15 blocks
    (hz.part (by omega) (by omega)) (by omega)
    hpart (by decide) (by omega) (hfree.part (by omega) (by omega))
  have hlast :=
    @fillWordsUpto_fills b I P (e + rounds * 512 + blocks * 32) 0 0 (b.n32 - 1) left repeats_zero
    (hword _ (by omega)) hmod (by omega) (hfree.part (by omega) le_rfl)
  have hend := hblocks.seq hlast (hfree.part (by omega) le_rfl) (by omega) (by omega)
  exact hfirst.seq (hloop.bind hend (hfree.part hle le_rfl) (by omega) (by omega)) hfree hle (by omega)

theorem Repeats.eq_zero (hv : Repeats v c) (h : v = 0) : c = 0 := by
  rw [← hv 0 b.wordSize_pos, h]
  exact repeats_zero 0 b.wordSize_pos

theorem fillWords_fills {words : ℕ}
    (hz : b.block32 = true → ZeroBlock b I P zeros32 d (d + words * b.wordSize))
    (hv : Repeats v c) (hd : d % b.wordSize = 0) (hds : d + words * b.wordSize ≤ 2 ^ b.addrBits)
    (hfree : Fillable I P d (d + words * b.wordSize)) :
    Filling b.wordSize I P (fun _ => c) d (d + words * b.wordSize)
      (b.fillWords zeros32 d v words) () := by
  have hrun : b.n32 ≤ b.fillRunWords ∧ b.fillRunWords ≤ 64 := by
    rcases b.wordSize_eq with h | h <;> simp [n32, fillRunWords, h]
  rw [fillWords]
  split_ifs with hshort hzeros
  · exact fillWordsUpto_fills hv hd hshort hrun.2 hfree
  · obtain rfl := hv.eq_zero hzeros.2
    exact fillZeros_fills (hz hzeros.1) hd (by omega) hds hfree
  · have hsplit : d + words * b.wordSize =
        d + words / 16 * 16 * b.wordSize + words % 16 * b.wordSize := by
      rw [Nat.add_assoc, ← Nat.add_mul, Nat.div_add_mod']
    rw [hsplit] at hfree ⊢
    have hloop := @fillWordsLoop_fills b I P d v c (words / 16) hv hd (hfree.part le_rfl (by omega))
    have hlast := @fillWordsUpto_fills b I P (d + words / 16 * 16 * b.wordSize) v c 15
      (words % 16) hv (aligned_add hd _)
      (by omega) (by decide) (hfree.part (by omega) le_rfl)
    exact hloop.bind hlast hfree (by omega) (by omega)

/-! ## Parts of a word -/

theorem fillPartial_fills {len : ℕ} (hv : Repeats v c) (hd : d % b.wordSize = 0) (hpos : 1 ≤ len)
    (hlen : len < b.wordSize) (hfree : Fillable I P d (d + len)) :
    Filling b.wordSize I P (fun _ => c) d (d + len) (b.fillPartial d v len) () := by
  intro m _
  have hin : P d := hfree.accessible d le_rfl (by omega)
  rw [fillPartial, scatterAligned, if_pos ⟨hpos, hlen⟩]
  refine ⟨_, rfl, .load (Access.ok_of_word rfl hd hin le_rfl (by omega)) ?_⟩
  refine ⟨fun x => ?_, [.store b.wordSize d], rfl, fun acc hacc => ?_⟩
  · show ByteMap.write _ _ _ x = _
    unfold ByteMap.write
    split_ifs with h1 h2 h2
    · rw [byteOf_lowMask _ _ hlen (by omega), if_pos (by omega), hv _ (by omega)]
    · rw [byteOf_lowMask _ _ hlen (by omega), if_neg (by omega), ByteMap.byteOf_word _ _ (by omega)]
      dsimp only
      rw [show d + (x - d) = x by omega]
    · omega
    · rfl
  · obtain rfl := mem_singleton.mp hacc
    exact Access.ok_of_word rfl hd hin le_rfl (by omega)

theorem fillRest_fills {rest : ℕ} (hv : Repeats v c) (hd : d % b.wordSize = 0)
    (hrest : rest < b.wordSize) (hfree : Fillable I P d (d + rest)) :
    Filling b.wordSize I P (fun _ => c) d (d + rest) (b.fillRest d v rest) () := by
  rw [fillRest]
  split_ifs with h
  · exact fillPartial_fills hv hd (by omega) hrest hfree
  · obtain rfl : rest = 0 := by omega
    exact .pure _ _

theorem fillBytes_fills {i : ℕ} (hv : Repeats v c) (hfree : Fillable I P (d + i) (d + i + n)) :
    Filling b.wordSize I P (fun _ => c) (d + i) (d + i + n) (b.fillBytes d v i n) () := by
  induction n generalizing i with
  | zero => exact .pure _ _
  | succ n ih =>
    have hbyte (j : ℕ) (hj : j < 1) : byteOf (k := 1) (v.setWidth 8) j = c := by
      obtain rfl : j = 0 := by omega
      rw [← hv 0 b.wordSize_pos]
      exact UInt8.toNat_inj.mp (by simp [byteOf])
    have hstore : Filling b.wordSize I P (fun _ => c) (d + i) (d + i + 1)
        (store (k := 1) (d + i) (v.setWidth 8)) () :=
      .store (hfree.store_ok (Nat.mod_one _) le_rfl (by omega)) hbyte
    rw [fillBytes]
    have hnext : d + i + (n + 1) = d + (i + 1) + n := by omega
    rw [hnext] at hfree ⊢
    exact hstore.seq (ih (hfree.part (by omega) le_rfl)) hfree (by omega) (by omega)

/-- The top bytes of the first word, and then what follows. -/
theorem fillHead_fills {phase : ℕ} (hv : Repeats v c) (hd : d % b.wordSize = 0)
    (hphase : phase < b.wordSize) (hfree : Fillable I P (d + phase) (d + b.wordSize)) :
    Filling b.wordSize I P (fun _ => c) (d + phase) (d + b.wordSize) (do
      let w ← load b.wordSize d
      store d ((w &&& ~~~(~~~(0#(8 * b.wordSize)) <<< (8 * phase))) |||
        (v &&& (~~~(0#(8 * b.wordSize)) <<< (8 * phase)))))
      () := by
  intro m _
  have hin : P (d + phase) := hfree.accessible _ le_rfl (by omega)
  refine ⟨_, rfl, .load (Access.ok_of_word rfl hd hin (by omega) (by omega)) ?_⟩
  refine ⟨fun x => ?_, [.store b.wordSize d], rfl, fun acc hacc => ?_⟩
  · show ByteMap.write _ _ _ x = _
    unfold ByteMap.write
    split_ifs with h1 h2 h2
    · rw [byteOf_highMask _ _ (by omega), if_neg (by omega), hv _ (by omega)]
    · rw [byteOf_highMask _ _ (by omega), if_pos (by omega), ByteMap.byteOf_word _ _ (by omega)]
      dsimp only
      rw [show d + (x - d) = x by omega]
    · omega
    · rfl
  · obtain rfl := mem_singleton.mp hacc
    exact Access.ok_of_word rfl hd hin (by omega) (by omega)

/-! ## The whole fill -/

/-- Whole words, then the rest. -/
theorem fillWords_rest_fills (hz : b.block32 = true → ZeroBlock b I P zeros32 d (d + n))
    (hv : Repeats v c)
    (hd : d % b.wordSize = 0) (hds : d + n ≤ 2 ^ b.addrBits) (hfree : Fillable I P d (d + n)) :
    Filling b.wordSize I P (fun _ => c) d (d + n) (do
      b.fillWords zeros32 d v (n / b.wordSize)
      b.fillRest (d + n / b.wordSize * b.wordSize) v (n % b.wordSize)) () := by
  have hsplit : d + n =
      d + n / b.wordSize * b.wordSize + n % b.wordSize := by rw [Nat.add_assoc, Nat.div_add_mod']
  rw [hsplit] at hz hds hfree ⊢
  have hwords := @fillWords_fills b I P d zeros32 v c (n / b.wordSize)
    (fun h => (hz h).part le_rfl (by omega)) hv hd
    (by omega) (hfree.part le_rfl (by omega))
  have hrest := fillRest_fills hv (aligned_add hd (n / b.wordSize)) (Nat.mod_lt n b.wordSize_pos)
    (hfree.part (by omega) le_rfl)
  exact hwords.seq hrest hfree (by omega) (by omega)

/-- **`fill` fills** any range, if the zero block is zero where there are block copies. -/
theorem fill_fills (hz : b.block32 = true → ZeroBlock b I P zeros32 d (d + n)) (hv : Repeats v c)
    (hds : d + n ≤ 2 ^ b.addrBits) (hfree : Fillable I P d (d + n)) :
    Filling b.wordSize I P (fun _ => c) d (d + n) (b.fill zeros32 d v n) () := by
  rw [fill]
  dsimp only
  split_ifs with hd h32 h64 hwords hshort
  · subst h32
    have h := @fillN_fills b I P d v c b.n32 hv hd (by rwa [n32_mul])
    rwa [n32_mul] at h
  · obtain ⟨hw, rfl⟩ := h64
    have h := @fillN_fills b I P d v c 16 hv hd (by rwa [hw])
    rwa [hw] at h ⊢
  · exact fillWords_rest_fills hz hv hd hds hfree
  · -- a range shorter than a word has no words to fill
    have hnone : n / b.wordSize = 0 := by omega
    have hlt : n < b.wordSize := (Nat.div_eq_zero_iff_lt b.wordSize_pos).mp hnone
    rw [hnone, Nat.zero_mul, Nat.add_zero, Nat.mod_eq_of_lt hlt]
    exact (Filling.pure d ()).seq (fillRest_fills hv hd hlt hfree) hfree le_rfl (by omega)
  · have h := @fillBytes_fills b I P d n v c 0 hv hfree
    exact h
  · obtain ⟨hlt, hle, haligned⟩ := b.phase_spec d
    have hword := b.wordSize_le
    obtain ⟨dw, hdw⟩ : ∃ dw, d = dw + d % b.wordSize := ⟨d - d % b.wordSize, by omega⟩
    generalize d % b.wordSize = phase at *
    subst hdw
    rw [Nat.add_sub_cancel] at haligned ⊢
    have hend : dw + phase + n = dw + b.wordSize + (n - (b.wordSize - phase)) := by omega
    rw [hend] at hz hds hfree ⊢
    have hnext : (dw + b.wordSize) % b.wordSize = 0 := by rw [Nat.add_mod_right, haligned]
    have hhead := fillHead_fills hv haligned hlt (hfree.part le_rfl (by omega))
    have hrest := fillWords_rest_fills (fun h => (hz h).part (by omega) le_rfl) hv hnext hds
      (hfree.part (by omega) le_rfl)
    have h := hhead.seq hrest hfree (by omega) (by omega)
    rwa [bind_assoc] at h

/-- `memset` fills. -/
theorem memset_fills {c : BitVec 32} (hz : b.block32 = true → ZeroBlock b I P zeros32 d (d + n))
    (hds : d + n ≤ 2 ^ b.addrBits) (hfree : Fillable I P d (d + n)) :
    Filling b.wordSize I P (fun _ => UInt8.ofBitVec (c.setWidth 8)) d (d + n)
      (b.memset zeros32 d c n) d := by
  have hreturn : Filling b.wordSize I P (fun _ => UInt8.ofBitVec (c.setWidth 8)) (d + n) (d + n)
      (pure d : Exec ℕ) d := .pure _ _
  rw [memset]
  split_ifs with h
  · exact (fill_fills hz (fun j hj => byteOf_repeat _ hj) hds hfree).seq hreturn hfree (by omega) le_rfl
  · rw [not_not] at h
    rw [h] at hreturn ⊢
    exact (fill_fills hz repeats_zero hds hfree).seq hreturn hfree (by omega) le_rfl

/-- The addresses of a fill: its range, and the zero block where there are block copies. -/
def InFill (b : Build) (zeros32 dest n x : ℕ) : Prop :=
  (dest ≤ x ∧ x < dest + n) ∨ (b.block32 = true ∧ zeros32 ≤ x ∧ x < zeros32 + 32)

/-- What the object `zeros32` is on a machine about to fill the `n` bytes at `dest`: 32 aligned zero
bytes, none of them in the range. -/
structure ZeroObject (b : Build) (zeros32 dest n : ℕ) (m : Machine) : Prop where
  aligned : zeros32 % 32 = 0
  bounded : zeros32 + 32 ≤ 2 ^ b.addrBits
  apart : ∀ i < 32, ¬ (dest ≤ zeros32 + i ∧ zeros32 + i < dest + n)
  zero : ∀ i < 32, m.mem (zeros32 + i) = 0

/-- What a fill of the `n` bytes at `dest` with `c` must be. -/
structure WordSafeFill (b : Build) (zeros32 dest : ℕ) (c : UInt8) (n : ℕ) (m m' : Machine) : Prop where
  bytes : ∀ i < n, m'.mem (dest + i) = c
  frame : ∀ x, ¬ (dest ≤ x ∧ x < dest + n) → m'.mem x = m.mem x
  accesses : ∃ new, m'.log = m.log ++ new ∧ ∀ acc ∈ new, acc.Ok b.wordSize (InFill b zeros32 dest n)

/-- `memset` on every machine with the zero block it needs. -/
theorem memset_wordSafe {c : BitVec 32} {m : Machine} (hds : d + n ≤ 2 ^ b.addrBits)
    (hz : b.block32 = true → ZeroObject b zeros32 d n m) :
    ∃ m', b.memset zeros32 d c n m = some (d, m') ∧
      WordSafeFill b zeros32 d (UInt8.ofBitVec (c.setWidth 8)) n m m' := by
  have hfree : Fillable (fun mem => b.block32 = true →
      ∀ i < 32, mem (zeros32 + i) = 0) (InFill b zeros32 d n) d
      (d + n) := by
    refine ⟨fun x hlo hhi => .inl ⟨hlo, hhi⟩, fun mem mem' hsame hI hb i hi => ?_⟩
    rw [hsame _ ((hz hb).apart i hi), hI hb i hi]
  have hblock (hb : b.block32 = true) : ZeroBlock b (fun mem => b.block32 = true →
      ∀ i < 32, mem (zeros32 + i) = 0)
      (InFill b zeros32 d n) zeros32 d (d + n) := by
    refine ⟨(hz hb).aligned, (hz hb).bounded, fun x hlo hhi => ?_, fun mem hI => hI hb,
      fun i hi => .inr ⟨hb, by omega⟩⟩
    by_contra hx
    have := (hz hb).apart (x - zeros32) (by omega)
    rw [show zeros32 + (x - zeros32) = x by omega] at this
    exact this ⟨hlo, hhi⟩
  obtain ⟨m', hrun, hfills⟩ := @memset_fills b _ _ d n zeros32 c hblock hds hfree m fun hb =>
    (hz hb).zero
  refine ⟨m', hrun, fun i hi => ?_, fun x hx => ?_, hfills.log⟩
  · rw [hfills.mem, if_pos (by omega)]
  · rw [hfills.mem, if_neg hx]

end Build
end Zilkworm.Guest
