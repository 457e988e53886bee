/-
# Copies in machine words

The pieces of `memcpy` in machine words: runs that a jump enters at the end of the range, loops,
the last bytes of a word under a mask, and words re-laned from a source out of phase.  Each copies
the lowest bytes first, so each is right wherever a forward copy is (`copyUnaligned_copies` and the
lemmas before it).
-/
import Zilkworm.Guest.MemBuiltins

namespace Zilkworm.Guest
namespace Build

open Lib

variable (b : Build)

/-! ## Words -/

theorem wordSize_pos : 0 < b.wordSize := by
  rcases b.wordSize_eq with h | h <;> omega

theorem n32_mul : b.n32 * b.wordSize = 32 := by
  rcases b.wordSize_eq with h | h <;> rw [n32, h]

theorem n32_pos : 0 < b.n32 := by
  rcases b.wordSize_eq with h | h <;> simp [n32, h]

theorem wordSize_le : b.wordSize ≤ 8 := by
  rcases b.wordSize_eq with h | h <;> omega

/-- The address space is large enough for the longest run. -/
theorem space_ge : 2 ^ 32 ≤ 2 ^ b.addrBits := by
  rcases b.addrBits_eq with h | h
  · rw [h]
  · rw [h]; decide

/-- Both ends are word-aligned exactly when the bits of both are. -/
theorem or_mod_wordSize (d s : ℕ) :
    (d ||| s) % b.wordSize = 0 ↔ d % b.wordSize = 0 ∧ s % b.wordSize = 0 := by
  obtain ⟨k, hk⟩ : ∃ k, b.wordSize = 2 ^ k := by
    rcases b.wordSize_eq with h | h
    · exact ⟨2, h⟩
    · exact ⟨3, h⟩
  rw [hk, Nat.or_mod_two_pow, Nat.or_eq_zero_iff]

/-- The word that holds an address starts at a multiple of its size, less than a word before it. -/
theorem phase_spec (x : ℕ) :
    x % b.wordSize < b.wordSize ∧ x % b.wordSize ≤ x ∧ (x - x % b.wordSize) % b.wordSize = 0 :=
  ⟨Nat.mod_lt _ b.wordSize_pos, Nat.mod_le _ _, Nat.sub_mod_eq_zero_of_mod_eq (Nat.mod_mod _ _).symm⟩

variable {b} {d s n : ℕ}

theorem aligned_add (hd : d % b.wordSize = 0) (i : ℕ) : (d + i * b.wordSize) % b.wordSize = 0 := by
  rw [Nat.add_mul_mod_self_right, hd]

/-- `copy_n` and the rounds of the loops. -/
theorem copyFrom_copies (hd : d % b.wordSize = 0) (hs : s % b.wordSize = 0) (i count : ℕ)
    (hf : Forward (d + i * b.wordSize) (s + i * b.wordSize) (count * b.wordSize)) :
    Copies b.wordSize (d + i * b.wordSize) (s + i * b.wordSize) (count * b.wordSize)
      (b.copyFrom d s i count) () := by
  induction count generalizing i with
  | zero => rw [Nat.zero_mul]; exact .pure _ _ _ _
  | succ count ih =>
    have hstep : (i + 1) * b.wordSize = i * b.wordSize + b.wordSize := Nat.succ_mul ..
    have hcount : (count + 1) * b.wordSize =
        b.wordSize + count * b.wordSize := by rw [Nat.succ_mul, Nat.add_comm]
    have hrest := ih (i + 1) (by rw [hstep, ← Nat.add_assoc, ← Nat.add_assoc]; exact hf.part hcount.ge)
    exact (Copies.word (aligned_add hd i) (aligned_add hs i)).bind hrest (by omega) (by omega) hcount hf

theorem copyN_copies (hd : d % b.wordSize = 0) (hs : s % b.wordSize = 0)
    (hf : Forward d s (n * b.wordSize)) :
    Copies b.wordSize d s (n * b.wordSize) (b.copyN d s n) () := by
  have h := copyFrom_copies hd hs 0 n (by simpa using hf)
  rwa [Nat.zero_mul, Nat.add_zero, Nat.add_zero] at h

/-! ## Runs based at the end of the range -/

/-- The base of a run may wrap, its cases reach back into the range. -/
theorem offBase_runBase {p count max size k : ℕ} (hk : 1 ≤ k) (hkc : k ≤ count) (hc : count ≤ max)
    (hmax : max * size < 2 ^ 32) (hsize : 0 < size) (hp : p + count * size ≤ 2 ^ b.addrBits) :
    b.offBase (b.runBase p count max size) ((max - k) * size) = p + (count - k) * size := by
  have hspace := b.space_ge
  obtain ⟨c, rfl⟩ := Nat.exists_eq_add_of_le hkc
  obtain ⟨e, rfl⟩ := Nat.exists_eq_add_of_le hc
  have hks : size ≤ k * size := Nat.le_mul_of_pos_left size hk
  rw [show k + c + e - k = c + e by omega, show k + c - k = c by omega]
  simp only [Nat.add_mul] at hmax hp ⊢
  rw [offBase, runBase, Nat.mod_add_mod]
  simp only [Nat.add_mul]
  rw [show p + (k * size + c * size) + (2 ^ b.addrBits - (k * size + c * size + e * size)) +
    (c * size + e * size) =
    p + c * size + 2 ^ b.addrBits by omega, Nat.add_mod_right, Nat.mod_eq_of_lt (by omega)]

theorem copyWordsRun_copies {max words k : ℕ} (hd : d % b.wordSize = 0) (hs : s % b.wordSize = 0)
    (hf : Forward d s (words * b.wordSize)) (hk : k ≤ words) (hwords : words ≤ max) (hmax : max ≤ 32)
    (hds : d + words * b.wordSize ≤ 2 ^ b.addrBits) (hss : s + words * b.wordSize ≤ 2 ^ b.addrBits) :
    Copies b.wordSize (d + (words - k) * b.wordSize) (s + (words - k) * b.wordSize) (k * b.wordSize)
      (b.copyWordsRun max (b.runBase d words max b.wordSize) (b.runBase s words max b.wordSize) k)
        () := by
  have hspan : max * b.wordSize < 2 ^ 32 := by
    rcases b.wordSize_eq with h | h <;> rw [h] <;> omega
  induction k with
  | zero => rw [Nat.zero_mul]; exact .pure _ _ _ _
  | succ k ih =>
    obtain ⟨c, rfl⟩ := Nat.exists_eq_add_of_le hk
    have hoff : k + 1 + c - (k + 1) = c := by omega
    have hnext : k + 1 + c - k = c + 1 := by omega
    have hsplit : (k + 1 + c) * b.wordSize =
        c * b.wordSize + (k + 1) * b.wordSize := by rw [← Nat.add_mul]; congr 1; omega
    have hcount : (k + 1) * b.wordSize =
        b.wordSize + k * b.wordSize := by rw [Nat.succ_mul, Nat.add_comm]
    have hstep : (c + 1) * b.wordSize = c * b.wordSize + b.wordSize := Nat.succ_mul ..
    have hrest := ih (by omega)
    rw [hnext] at hrest
    rw [copyWordsRun, offBase_runBase (by omega) hk hwords hspan b.wordSize_pos hds,
      offBase_runBase (by omega) hk hwords hspan b.wordSize_pos hss, hoff]
    exact (Copies.word (aligned_add hd c) (aligned_add hs c)).bind hrest (by omega) (by omega) hcount
      (hf.part hsplit.ge)

/-- `copy_words_upto`: the jump into the run copies exactly the words asked for. -/
theorem copyWordsUpto_copies {max words : ℕ} (hd : d % b.wordSize = 0) (hs : s % b.wordSize = 0)
    (hf : Forward d s (words * b.wordSize)) (hwords : words ≤ max) (hmax : max ≤ 32)
    (hds : d + words * b.wordSize ≤ 2 ^ b.addrBits) (hss : s + words * b.wordSize ≤ 2 ^ b.addrBits) :
    Copies b.wordSize d s (words * b.wordSize) (b.copyWordsUpto max d s words) () := by
  have h := copyWordsRun_copies hd hs hf le_rfl hwords hmax hds hss
  rw [Nat.sub_self, Nat.zero_mul, Nat.add_zero, Nat.add_zero] at h
  rwa [copyWordsUpto, if_pos hwords]

theorem blocksRun_copies {max blocks k : ℕ} (hd : d % 32 = 0) (hs : s % 32 = 0) (hne : d ≠ s)
    (hf : Forward d s (blocks * 32)) (hk : k ≤ blocks) (hblocks : blocks ≤ max) (hmax : max ≤ 32)
    (hds : d + blocks * 32 ≤ 2 ^ b.addrBits) (hss : s + blocks * 32 ≤ 2 ^ b.addrBits) :
    Copies b.wordSize (d + (blocks - k) * 32) (s + (blocks - k) * 32) (k * 32)
      (b.blocksRun max b.n32 (b.runBase d blocks max 32) (b.runBase s blocks max 32) k) () := by
  induction k with
  | zero => exact .pure _ _ _ _
  | succ k ih =>
    rw [blocksRun, Nat.mul_assoc, n32_mul,
      offBase_runBase (by omega) hk hblocks (by omega) (by decide) hds,
      offBase_runBase (by omega) hk hblocks (by omega) (by decide) hss]
    exact (Copies.block (by omega) (by omega) (by omega)).bind (ih (by omega)) (by omega)
      (by omega) (by omega)
      (hf.part (by omega))

/-- `blocks_upto`: the jump into the run copies exactly the blocks asked for. -/
theorem blocksUpto_copies {max blocks : ℕ} (hd : d % 32 = 0) (hs : s % 32 = 0) (hne : d ≠ s)
    (hf : Forward d s (blocks * 32)) (hblocks : blocks ≤ max) (hmax : max ≤ 32)
    (hds : d + blocks * 32 ≤ 2 ^ b.addrBits) (hss : s + blocks * 32 ≤ 2 ^ b.addrBits) :
    Copies b.wordSize d s (blocks * 32) (b.blocksUpto max b.n32 d s blocks) () := by
  have h := blocksRun_copies hd hs hne hf le_rfl hblocks hmax hds hss
  rw [Nat.sub_self] at h
  have hn32 : b.n32 ≠ 0 := fun h0 => by have := b.n32_mul; rw [h0] at this; omega
  rw [blocksUpto, if_pos hblocks, if_pos hn32]
  exact h

theorem copyBytesRun_copies {w k : ℕ} (hd : k ≤ d) (hs : k ≤ s) (hf : Forward (d - k) (s - k) k) :
    Copies w (d - k) (s - k) k (copyBytesRun d s k) () := by
  induction k with
  | zero => exact .pure _ _ _ _
  | succ k ih =>
    have hrest := ih (by omega) (by omega) (by unfold Forward at hf ⊢; omega)
    exact (Copies.word (Nat.mod_one _) (Nat.mod_one _)).bind hrest (by omega) (by omega) (by omega) hf

/-- The jump into the run of byte copies copies exactly the bytes asked for. -/
theorem copyBytes_copies {w max : ℕ} (hf : Forward d s n) (hn : n ≤ max) :
    Copies w d s n (copyBytes max d s n) () := by
  have h := @copyBytesRun_copies (d + n) (s + n) w n (by omega) (by omega) (by simpa using hf)
  rw [Nat.add_sub_cancel, Nat.add_sub_cancel] at h
  rwa [copyBytes, if_pos hn]

/-! ## Loops over words -/

theorem copyWordsLoop_copies {rounds : ℕ} (hd : d % b.wordSize = 0) (hs : s % b.wordSize = 0)
    (hf : Forward d s (rounds * 16 * b.wordSize)) :
    Copies b.wordSize d s (rounds * 16 * b.wordSize) (b.copyWordsLoop rounds d s)
      (d + rounds * 16 * b.wordSize, s + rounds * 16 * b.wordSize) := by
  induction rounds generalizing d s with
  | zero => simpa [copyWordsLoop] using Copies.pure b.wordSize d s (d, s)
  | succ rounds ih =>
    have hsplit : (rounds + 1) * 16 * b.wordSize = 16 * b.wordSize + rounds * 16 * b.wordSize := by ring
    have hf' := hf.part hsplit.ge
    have hrest := ih (aligned_add hd 16) (aligned_add hs 16) hf'
    rw [Nat.add_assoc, Nat.add_assoc, ← hsplit] at hrest
    exact (copyN_copies hd hs (hf.take (by omega))).bind hrest rfl rfl hsplit hf

/-- `copy_words` copies its words and leaves the pointers behind them. -/
theorem copyWords_copies {words : ℕ} (hd : d % b.wordSize = 0) (hs : s % b.wordSize = 0)
    (hf : Forward d s (words * b.wordSize)) (hds : d + words * b.wordSize ≤ 2 ^ b.addrBits)
    (hss : s + words * b.wordSize ≤ 2 ^ b.addrBits) :
    Copies b.wordSize d s (words * b.wordSize) (b.copyWords d s words)
      (d + words * b.wordSize, s + words * b.wordSize) := by
  have hsplit : words * b.wordSize = words / 16 * 16 * b.wordSize + words % 16 * b.wordSize := by
    rw [← Nat.add_mul]; congr 1; omega
  have hloop := @copyWordsLoop_copies b d s (words / 16) hd hs (hf.take (by omega))
  have hrest :=
    @copyWordsUpto_copies b (d + words / 16 * 16 * b.wordSize) (s + words / 16 * 16 * b.wordSize) 15
    (words % 16) (aligned_add hd _) (aligned_add hs _) (hf.part hsplit.ge) (by omega) (by decide)
    (by omega) (by omega)
  have hreturn := hrest.bind_pure fun _ => (d + words * b.wordSize, s + words * b.wordSize)
  rw [copyWords]
  refine hloop.bind ?_ rfl rfl hsplit hf
  dsimp only
  rw [Nat.add_assoc, Nat.add_assoc, ← hsplit]
  exact hreturn

/-! ## The last bytes of a word -/

/-- `scatter_aligned` copies the bytes its word has from the source. -/
theorem scatterAligned_copied {m : Machine} {v : b.Word} {len : ℕ} (hd : d % b.wordSize = 0)
    (hpos : 1 ≤ len) (hlen : len < b.wordSize) (hv : ∀ j < len, byteOf v j = m.mem (s + j)) :
    ∃ m', b.scatterAligned d v len m = some ((), m') ∧ Copied b.wordSize d s len m m' := by
  rw [scatterAligned, if_pos ⟨hpos, hlen⟩]
  refine ⟨_, rfl, .load (Access.ok_of_word rfl hd (.inl ⟨le_rfl, by omega⟩) le_rfl (by omega)) ?_⟩
  refine ⟨ByteMap.write_eq_copy le_rfl (by omega) fun j hj => ?_, [.store b.wordSize d], rfl,
    fun acc hacc => ?_⟩
  · dsimp only
    rw [byteOf_lowMask _ _ hlen hj, ByteMap.copy]
    split_ifs with h1 h2 h2
    · rw [hv j h1, show d + j - d = j by omega]
    · omega
    · omega
    · exact ByteMap.byteOf_word _ _ hj
  · obtain rfl := List.mem_singleton.mp hacc
    exact Access.ok_of_word rfl hd (.inl ⟨le_rfl, by omega⟩) le_rfl (by omega)

/-- The bytes after the last whole word are merged into the word there. -/
theorem copyRest_copies {rest : ℕ} (hd : d % b.wordSize = 0) (hs : s % b.wordSize = 0)
    (hrest : rest < b.wordSize) :
    Copies b.wordSize d s rest (b.copyRest d s rest) () := by
  intro m
  rw [copyRest]
  split_ifs with h
  · obtain ⟨m', hrun, hcopied⟩ :=
      @scatterAligned_copied b d s { m with log := m.log ++ [.load b.wordSize s] }
      (m.mem.word b.wordSize s) rest hd (by omega) hrest fun j hj => ByteMap.byteOf_word _ _ (by omega)
    exact ⟨m', hrun,
      .load (Access.ok_of_word rfl hs (.inr ⟨le_rfl, by omega⟩) le_rfl (by omega)) hcopied⟩
  · obtain rfl : rest = 0 := by omega
    exact ⟨m, rfl, .nil _ _ _ m⟩

/-- Whole words, then the rest. -/
theorem copyWords_rest_copies (hd : d % b.wordSize = 0) (hs : s % b.wordSize = 0) (hf : Forward d s n)
    (hds : d + n ≤ 2 ^ b.addrBits) (hss : s + n ≤ 2 ^ b.addrBits) :
    Copies b.wordSize d s n
      (b.copyWords d s (n / b.wordSize) >>= fun q => b.copyRest q.1 q.2 (n % b.wordSize)) () := by
  have hsplit : n = n / b.wordSize * b.wordSize + n % b.wordSize := (Nat.div_add_mod' n b.wordSize).symm
  have hwords :=
    @copyWords_copies b d s (n / b.wordSize) hd hs (hf.take (by omega)) (by omega) (by omega)
  exact hwords.bind (copyRest_copies (aligned_add hd _) (aligned_add hs _)
    (Nat.mod_lt _ b.wordSize_pos)) rfl rfl hsplit hf

/-! ## Re-laned words -/

/-- The word carried from one round to the next: its bytes from `phase` on are the source's, up to
the source's end. -/
def Carries (mem : ByteMap) (phase sw sourceEnd : ℕ) (w : b.Word) : Prop :=
  ∀ j, phase ≤ j → j < b.wordSize → sw + j < sourceEnd → byteOf w j = mem (sw + j)

/-- The machine after one round: the word at `sw + wordSize` loaded and re-laned with `w0` to `d`.
-/
def relanedRound (m : Machine) (phase d sw : ℕ) (w0 : b.Word) : Machine :=
  ⟨m.mem.write d ((w0 >>> (8 * phase)) |||
    (m.mem.word b.wordSize (sw + b.wordSize) <<< (8 * (b.wordSize - phase)))),
    m.log ++ [.load b.wordSize (sw + b.wordSize)] ++ [.store b.wordSize d]⟩

/-- One round stores the source's word and carries the next one. -/
theorem relanedRound_copied {m : Machine} {phase sw sourceEnd : ℕ} {w0 : b.Word}
    (hd : d % b.wordSize = 0)
    (hs : sw % b.wordSize = 0) (hpos : 0 < phase) (hphase : phase < b.wordSize)
    (hend : sw + phase + b.wordSize ≤ sourceEnd) (hw : Carries m.mem phase sw sourceEnd w0)
    (hf : d ≤ sw + phase ∨ sourceEnd ≤ d) :
    Copied b.wordSize d (sw + phase) b.wordSize m (relanedRound m phase d sw w0) ∧
      Carries (relanedRound m phase d sw w0).mem phase (sw + b.wordSize) sourceEnd
        (m.mem.word b.wordSize (sw + b.wordSize)) := by
  have hmem : (relanedRound m phase d sw w0).mem = m.mem.copy d (sw + phase) b.wordSize := by
    refine ByteMap.write_eq_copy le_rfl le_rfl fun j hj => ?_
    rw [byteOf_relane _ _ hphase.le hj, ByteMap.copy_dest _ hj]
    split_ifs with h
    · rw [hw _ (by omega) h (by omega)]
      congr 1
      omega
    · rw [ByteMap.byteOf_word _ _ (by omega)]
      congr 1
      omega
  refine ⟨.load ?_ ⟨hmem, [.store b.wordSize d], rfl, fun acc hacc => ?_⟩, fun j hj hjw hlt => ?_⟩
  · refine Access.ok_of_word (x := sw + b.wordSize) rfl ?_ (.inr (by omega)) le_rfl (by omega)
    rw [Nat.add_mod_right, hs]
  · obtain rfl := List.mem_singleton.mp hacc
    exact Access.ok_of_word rfl hd (.inl ⟨le_rfl, by omega⟩) le_rfl (by omega)
  · -- the bytes carried lie behind the word stored, or outside the destination
    rw [ByteMap.byteOf_word _ _ hjw, hmem, ByteMap.copy, if_neg (by omega)]

/-- The loop over words of another alignment, with the last source word in hand. -/
theorem relanedLoop_copied {m : Machine} {phase sw sourceEnd words : ℕ} {w0 : b.Word}
    (hd : d % b.wordSize = 0)
    (hs : sw % b.wordSize = 0) (hpos : 0 < phase) (hphase : phase < b.wordSize)
    (hend : sw + phase + words * b.wordSize ≤ sourceEnd) (hw : Carries m.mem phase sw sourceEnd w0)
    (hf : d ≤ sw + phase ∨ sourceEnd ≤ d) :
    ∃ m' w', b.relanedLoop phase words d sw w0 m =
          some ((d + words * b.wordSize, sw + words * b.wordSize, w'), m') ∧
      Copied b.wordSize d (sw + phase) (words * b.wordSize) m m' ∧
      Carries m'.mem phase (sw + words * b.wordSize) sourceEnd w' := by
  induction words generalizing m d sw w0 with
  | zero =>
    rw [Nat.zero_mul, Nat.add_zero, Nat.add_zero]
    exact ⟨m, w0, rfl, .nil _ _ _ m, hw⟩
  | succ words ih =>
    have hsplit : (words + 1) * b.wordSize =
        b.wordSize + words * b.wordSize := by rw [Nat.succ_mul, Nat.add_comm]
    rw [hsplit] at hend ⊢
    obtain ⟨hcopied₁, hw₁⟩ := relanedRound_copied hd hs hpos hphase (by omega) hw hf
    obtain ⟨m₂, w₂, hrun₂, hcopied₂, hw₂⟩ :=
      ih (d := d + b.wordSize) (by simpa using hd) (by simpa using hs)
      (by omega) hw₁ (by omega)
    rw [Nat.add_assoc, Nat.add_assoc] at hrun₂
    refine ⟨m₂, w₂, hrun₂, ?_, ?_⟩
    · rw [Nat.add_right_comm] at hcopied₂
      exact hcopied₁.append hcopied₂ (by unfold Forward; omega)
    · rwa [← Nat.add_assoc]

theorem relanedRest_copied {m : Machine} {phase sw rest : ℕ} {w0 : b.Word} (hd : d % b.wordSize = 0)
    (hs : sw % b.wordSize = 0) (hphase : phase < b.wordSize) (hrest : rest < b.wordSize)
    (hw : Carries m.mem phase sw (sw + phase + rest) w0) :
    ∃ m', b.relanedRest phase d sw w0 rest m = some ((), m') ∧
      Copied b.wordSize d (sw + phase) rest m m' := by
  rw [relanedRest]
  split_ifs with h0 hmore
  · -- the tail continues into the next source word
    obtain ⟨m', hrun, hcopied⟩ := @scatterAligned_copied b d (sw + phase)
      { m with log := m.log ++ [.load b.wordSize (sw + b.wordSize)] }
      ((w0 >>> (8 * phase)) |||
        (m.mem.word b.wordSize (sw + b.wordSize) <<< (8 * (b.wordSize - phase)))) rest hd
      (by omega) hrest fun j hj => by
        show _ = m.mem (sw + phase + j)
        rw [byteOf_relane _ _ hphase.le (by omega)]
        split_ifs with h
        · rw [hw _ (by omega) h (by omega)]
          congr 1
          omega
        · rw [ByteMap.byteOf_word _ _ (by omega)]
          congr 1
          omega
    refine ⟨m', hrun, .load ?_ hcopied⟩
    refine Access.ok_of_word (x := sw + b.wordSize) rfl ?_ (.inr (by omega)) le_rfl (by omega)
    rw [Nat.add_mod_right, hs]
  · refine scatterAligned_copied hd (by omega) hrest fun j hj => ?_
    have hshift := byteOf_relane w0 0#_ hphase.le (show j < b.wordSize by omega)
    rw [BitVec.zero_shiftLeft, BitVec.or_zero, if_pos (by omega)] at hshift
    rw [hshift, hw _ (by omega) (by omega) (by omega)]
    congr 1
    omega
  · obtain rfl : rest = 0 := by omega
    exact ⟨m, rfl, .nil _ _ _ m⟩

/-- A copy from a source out of phase with a word-aligned destination. -/
theorem relaned_copies {phase sw : ℕ} (hd : d % b.wordSize = 0) (hs : sw % b.wordSize = 0)
    (hpos : 0 < phase) (hphase : phase < b.wordSize) (hn : 1 ≤ n) (hf : Forward d (sw + phase) n) :
    Copies b.wordSize d (sw + phase) n (load b.wordSize sw >>= fun w0 =>
      b.relanedLoop phase (n / b.wordSize) d sw w0 >>= fun q =>
        b.relanedRest phase q.1 q.2.1 q.2.2 (n % b.wordSize)) () := by
  have hsplit : n / b.wordSize * b.wordSize + n % b.wordSize = n := Nat.div_add_mod' n b.wordSize
  intro m
  obtain ⟨m₁, w', hrun₁, hcopied₁, hw₁⟩ :=
    @relanedLoop_copied b d { m with log := m.log ++ [.load b.wordSize sw] } phase sw
    (sw + phase + n) (n / b.wordSize) (m.mem.word b.wordSize sw) hd hs hpos hphase (by omega)
    (fun j _ hj _ => ByteMap.byteOf_word _ _ hj) hf
  have hend : sw + n / b.wordSize * b.wordSize + phase + n % b.wordSize = sw + phase + n := by omega
  obtain ⟨m₂, hrun₂, hcopied₂⟩ :=
    relanedRest_copied (aligned_add hd (n / b.wordSize)) (aligned_add hs (n / b.wordSize))
    hphase (Nat.mod_lt n b.wordSize_pos) (by rwa [hend])
  refine ⟨m₂, (Exec.bind_run (m := m) rfl).trans ((Exec.bind_run hrun₁).trans hrun₂),
    .load (Access.ok_of_word (x := sw + phase) rfl hs (.inr (by omega)) (by omega) (by omega)) ?_⟩
  rw [Nat.add_right_comm] at hcopied₂
  have h := hcopied₁.append hcopied₂ (by rwa [hsplit])
  rwa [hsplit] at h

/-- `copy_unaligned` from the first destination word boundary on. -/
theorem copyWordAligned_copies (hd : d % b.wordSize = 0) (hn : 1 ≤ n) (hf : Forward d s n)
    (hds : d + n ≤ 2 ^ b.addrBits) (hss : s + n ≤ 2 ^ b.addrBits) :
    Copies b.wordSize d s n (b.copyWordAligned d s n) () := by
  rw [copyWordAligned]
  dsimp only
  split_ifs with hphase
  · exact copyWords_rest_copies hd hphase hf hds hss
  · have hback : s - s % b.wordSize + s % b.wordSize = s := Nat.sub_add_cancel (Nat.mod_le _ _)
    obtain ⟨hlt, -, haligned⟩ := b.phase_spec s
    have h := relaned_copies hd haligned (Nat.pos_of_ne_zero hphase) hlt hn (by rwa [hback])
    rw [hback] at h
    exact h

theorem copyHalves_copies {i count : ℕ} (hd : d % 4 = 0) (hs : s % 4 = 0)
    (hf : Forward (d + 4 * i) (s + 4 * i) (4 * count)) :
    Copies b.wordSize (d + 4 * i) (s + 4 * i) (4 * count) (copyHalves d s i count) () := by
  induction count generalizing i with
  | zero => exact .pure _ _ _ _
  | succ count ih =>
    have hrest := @ih (i + 1) (by unfold Forward at hf ⊢; omega)
    exact (Copies.word (by omega) (by omega)).bind hrest (by omega) (by omega) (by omega) hf

/-- `copy_unaligned`. -/
theorem copyUnaligned_copies (hn : 16 ≤ n) (hf : Forward d s n) (hds : d + n ≤ 2 ^ b.addrBits)
    (hss : s + n ≤ 2 ^ b.addrBits) : Copies b.wordSize d s n (b.copyUnaligned d s n) d := by
  rw [copyUnaligned]
  dsimp only
  split_ifs with haddr hphase
  · -- an address between 4-byte aligned ends
    obtain ⟨-, rfl, hor⟩ := haddr
    rw [show (4 : ℕ) = 2 ^ 2 from rfl, Nat.or_mod_two_pow, Nat.or_eq_zero_iff] at hor
    exact (copyHalves_copies (i := 0) hor.1 hor.2 hf).bind_pure fun _ => d
  · have hlt : d % b.wordSize < b.wordSize := Nat.mod_lt _ b.wordSize_pos
    have hsize := b.wordSize_le
    have haligned : (d + (b.wordSize - d % b.wordSize)) % b.wordSize = 0 := by
      rcases b.wordSize_eq with h | h <;> rw [h] <;> omega
    have hhead := @copyBytes_copies d s (b.wordSize - d % b.wordSize) b.wordSize (b.wordSize - 1)
      (hf.take (by omega)) (by omega)
    have hwords := @copyWordAligned_copies b (d + (b.wordSize - d % b.wordSize))
      (s + (b.wordSize - d % b.wordSize))
      (n - (b.wordSize - d % b.wordSize)) haligned (by omega) (hf.part (by omega)) (by omega) (by omega)
    exact hhead.bind (hwords.bind_pure fun _ => d) rfl rfl (by omega) hf
  · exact (copyWordAligned_copies (by omega) (by omega) hf hds hss).bind_pure fun _ => d

end Build
end Zilkworm.Guest
