/-
# The copies of the guests are right and word-safe

`memcpy` picks a piece for each size and alignment; every piece copies the lowest bytes first, or
reads its source before it stores (`memcpy_copies`).  Above an overlapping source `memmove` copies
the highest bytes first (`memmove_copies`).
-/
import Zilkworm.Guest.Copy32
import Mathlib.Data.Nat.Bitwise

namespace Zilkworm.Guest
namespace Build

open Lib

variable {b : Build} {d s n : ℕ}

/-! ## `memcpy` -/

theorem blocksLoop_copies {rounds : ℕ} (hd : d % 32 = 0) (hs : s % 32 = 0) (hne : d ≠ s)
    (hf : Forward d s (rounds * 512)) (hds : d + rounds * 512 ≤ 2 ^ b.addrBits)
    (hss : s + rounds * 512 ≤ 2 ^ b.addrBits) :
    Copies b.wordSize d s (rounds * 512) (b.blocksLoop rounds d s)
      (d + rounds * 512, s + rounds * 512) := by
  induction rounds generalizing d s with
  | zero => exact .pure _ _ _ _
  | succ rounds ih =>
    have hsplit : (rounds + 1) * 512 = 16 * 32 + rounds * 512 := by omega
    have hf' : Forward (d + 16 * 32) (s + 16 * 32) (rounds * 512) := by
      unfold Forward at hf ⊢
      omega
    have hrest := ih (by omega) (by omega) (by omega) hf' (by omega) (by omega)
    rw [Nat.add_assoc, Nat.add_assoc, ← hsplit] at hrest
    have hle : 16 * 32 ≤ (rounds + 1) * 512 := by omega
    have hfirst := @blocksUpto_copies b d s 16 16 hd hs hne (hf.take hle) le_rfl (by decide)
      ((Nat.add_le_add_left hle d).trans hds) ((Nat.add_le_add_left hle s).trans hss)
    exact hfirst.seq hrest rfl rfl hsplit hf

/-- The words up to the next 32-byte boundary. -/
theorem lead_spec (hd : d % b.wordSize = 0) (hds : d ≤ 2 ^ b.addrBits) :
    (d + (2 ^ b.addrBits - d) % 32 / b.wordSize * b.wordSize) % 32 = 0 ∧
      (2 ^ b.addrBits - d) % 32 / b.wordSize ≤ b.n32 - 1 := by
  have hspace : 2 ^ b.addrBits % 32 = 0 := by
    rcases b.addrBits_eq with h | h <;> rw [h] <;> rfl
  generalize 2 ^ b.addrBits = space at hspace hds ⊢
  rcases b.wordSize_eq with h | h <;> rw [n32, h] <;> rw [h] at hd <;> omega

/-- The block copies of `memcpy_rest`, from a 32-byte boundary on. -/
theorem blocks_copies (hd : d % 32 = 0) (hs : s % 32 = 0) (hne : d ≠ s) (hf : Forward d s n)
    (hds : d + n ≤ 2 ^ b.addrBits) (hss : s + n ≤ 2 ^ b.addrBits) :
    Copies b.wordSize d s n (do
      let q ← b.blocksLoop (n / 32 / 16) d s
      b.blocksUpto 15 b.n32 q.1 q.2 (n / 32 % 16)
      b.copyWordsUpto (b.n32 - 1) (q.1 + n / 32 % 16 * 32) (q.2 + n / 32 % 16 * 32) (n % 32 / b.wordSize)
      b.copyRest (q.1 + n / 32 % 16 * 32 + n % 32 / b.wordSize * b.wordSize)
        (q.2 + n / 32 % 16 * 32 + n % 32 / b.wordSize * b.wordSize) (n % b.wordSize)) () := by
  have hn32 := b.n32_mul
  have hdvd : b.wordSize ∣ 32 := ⟨b.n32, by rw [Nat.mul_comm, hn32]⟩
  have hwords : n % 32 / b.wordSize * b.wordSize + n % b.wordSize = n % 32 := by
    rw [← Nat.mod_mod_of_dvd n hdvd]
    exact Nat.div_add_mod' _ _
  have hcount : n % 32 / b.wordSize ≤ b.n32 - 1 := by
    have : n % 32 / b.wordSize < b.n32 :=
      (Nat.div_lt_iff_lt_mul b.wordSize_pos).mpr (by rw [hn32]; omega)
    omega
  have hn : b.n32 ≤ 8 := by
    rcases b.wordSize_eq with h | h <;> simp [n32, h]
  have haligned (x : ℕ) (hx : x % 32 = 0) : x % b.wordSize = 0 := by
    rw [← Nat.mod_mod_of_dvd x hdvd, hx, Nat.zero_mod]
  have hloop :=
    @blocksLoop_copies b d s (n / 32 / 16) hd hs hne (hf.take (by omega)) (by omega) (by omega)
  have hblocks := @blocksUpto_copies b (d + n / 32 / 16 * 512) (s + n / 32 / 16 * 512) 15
    (n / 32 % 16) (by omega) (by omega)
    (by omega) (hf.part (by omega)) (by omega) (by decide) (by omega) (by omega)
  have hrun := @copyWordsUpto_copies b (d + n / 32 / 16 * 512 + n / 32 % 16 * 32)
    (s + n / 32 / 16 * 512 + n / 32 % 16 * 32)
    (b.n32 - 1) (n % 32 / b.wordSize) (haligned _ (by omega)) (haligned _ (by omega))
    (by rw [Nat.add_assoc, Nat.add_assoc]; exact hf.part (by omega)) hcount (by omega)
      (by omega) (by omega)
  have hrest :=
    @copyRest_copies b (d + n / 32 / 16 * 512 + n / 32 % 16 * 32 + n % 32 / b.wordSize * b.wordSize)
    (s + n / 32 / 16 * 512 + n / 32 % 16 * 32 + n % 32 / b.wordSize * b.wordSize) (n % b.wordSize)
    (aligned_add (haligned _ (by omega)) _) (aligned_add (haligned _ (by omega)) _)
      (Nat.mod_lt _ b.wordSize_pos)
  have hwordsRest := hrun.seq hrest rfl rfl hwords.symm
    (by rw [Nat.add_assoc, Nat.add_assoc]; exact hf.part (by omega))
  have hblocksRest :=
    hblocks.seq hwordsRest rfl rfl (show n / 32 % 16 * 32 + n % 32 = _ from rfl) (hf.part (by omega))
  exact hloop.bind hblocksRest rfl rfl (by omega) hf

theorem memcpyRest_copies (hn : 16 ≤ n) (hbig : (d ||| s) % b.wordSize = 0 → 32 ≤ n) (hf : Forward d s n)
    (hds : d + n ≤ 2 ^ b.addrBits) (hss : s + n ≤ 2 ^ b.addrBits) :
    Copies b.wordSize d s n (b.memcpyRest d s n) d := by
  rw [memcpyRest]
  split_ifs with hor hblocks
  · exact copyUnaligned_copies hn hf hds hss
  · -- words up to the 32-byte boundary, then blocks
    have hbig := hbig (not_not.mp hor)
    obtain ⟨hd, hs⟩ := (b.or_mod_wordSize d s).mp (not_not.mp hor)
    obtain ⟨hne, hxor⟩ := hblocks
    rw [show (32 : ℕ) = 2 ^ 5 from rfl, Nat.xor_mod_two_pow, Nat.xor_eq_zero_iff] at hxor
    obtain ⟨hboundary, hlead⟩ := lead_spec hd (show d ≤ 2 ^ b.addrBits by omega)
    have hn32 := b.n32_mul
    have hpos := b.wordSize_pos
    have hmax : b.n32 ≤ 32 := Nat.div_le_self 32 b.wordSize
    generalize (2 ^ b.addrBits - d) % 32 / b.wordSize = lead at hboundary hlead ⊢
    have hsize : lead * b.wordSize ≤ b.n32 * b.wordSize := Nat.mul_le_mul_right _ (by omega)
    have hfirst := @copyWordsUpto_copies b d s (b.n32 - 1) lead hd hs (hf.take (by omega)) hlead
      (by omega) (by omega) (by omega)
    have hrest := @blocks_copies b (d + lead * b.wordSize) (s + lead * b.wordSize)
      (n - lead * b.wordSize) hboundary
      (by omega) (by omega) (hf.part (by omega)) (by omega) (by omega)
    have hreturn := hrest.bind_pure fun _ => d
    simp only [bind_assoc] at hreturn
    exact hfirst.seq hreturn rfl rfl (by omega) hf
  · obtain ⟨hd, hs⟩ := (b.or_mod_wordSize d s).mp (not_not.mp hor)
    have h := (copyWords_rest_copies hd hs hf hds hss).bind_pure fun _ => d
    simp only [bind_assoc] at h
    exact h

/-- **`memcpy` copies**, between any ends where a forward copy is right. -/
theorem memcpy_copies (hf : Forward d s n) (hds : d + n ≤ 2 ^ b.addrBits)
    (hss : s + n ≤ 2 ^ b.addrBits) :
    Copies b.wordSize d s n (b.memcpy d s n) d := by
  have hsplit : n = n / b.wordSize * b.wordSize + n % b.wordSize := (Nat.div_add_mod' n b.wordSize).symm
  have hmod : n % b.wordSize < b.wordSize := Nat.mod_lt _ b.wordSize_pos
  rw [memcpy]
  dsimp only
  split_ifs with hor h32 hrun hblock h32 hshort hblock
  · obtain ⟨hd, hs⟩ := (b.or_mod_wordSize d s).mp hor
    rw [h32, ← b.n32_mul] at hf ⊢
    exact (copyN_copies hd hs hf).bind_pure fun _ => d
  · obtain ⟨hd, hs⟩ := (b.or_mod_wordSize d s).mp hor
    have hwords := @copyWordsUpto_copies b d s copyRunWords (n / b.wordSize) hd hs
      (hf.take (by omega)) hrun (by decide)
      (by omega) (by omega)
    have hrest := @copyRest_copies b (d + n / b.wordSize * b.wordSize)
      (s + n / b.wordSize * b.wordSize) (n % b.wordSize)
      (aligned_add hd _) (aligned_add hs _) hmod
    exact hwords.seq (hrest.bind_pure fun _ => d) rfl rfl hsplit hf
  · have hmul : 32 * b.wordSize ≤ n / b.wordSize * b.wordSize :=
      Nat.mul_le_mul_right _ (by simp only [copyRunWords] at hrun; omega)
    have hpos := b.wordSize_pos
    exact memcpyRest_copies (by omega) (fun _ => by omega) hf hds hss
  · obtain ⟨hd, hs⟩ := (b.or_mod_wordSize d s).mp hor
    have h := (copyWords_rest_copies hd hs hf hds hss).bind_pure fun _ => d
    simp only [bind_assoc] at h
    exact h
  · subst h32
    exact copy32Any_copies.bind_pure fun _ => d
  · exact (copyBytes_copies hf (by omega)).bind_pure fun _ => d
  · exact memcpyRest_copies (by omega) (fun h => absurd h hor) hf hds hss
  · exact copyUnaligned_copies (by omega) hf hds hss

/-! ## `memmove` -/

/-- The bytes until the end of the destination is word-aligned. -/
theorem moveTail_copies (hd : n ≤ d) (hs : n ≤ s) (hb : s ≤ d) :
    ∃ k ≤ n, Copies b.wordSize (d - k) (s - k) k (b.moveTail d s n) (d - k, s - k, n - k) ∧
      ((d - k) % b.wordSize = 0 ∨ k = n) := by
  induction n generalizing d s with
  | zero => exact ⟨0, le_rfl, .pure _ _ _ _, .inr rfl⟩
  | succ n ih =>
    rw [moveTail]
    split_ifs with hphase
    · obtain ⟨k, hk, hcopies, hend⟩ := @ih (d - 1) (s - 1) (by omega) (by omega) (by omega)
      rw [show d - 1 - k = d - (k + 1) by omega, show s - 1 - k = s - (k + 1) by omega,
        show n - k = n + 1 - (k + 1) by omega] at hcopies
      rw [show d - 1 - k = d - (k + 1) by omega] at hend
      refine ⟨k + 1, by omega, ?_, hend.imp_right fun h => by omega⟩
      exact (Copies.word (Nat.mod_one _) (Nat.mod_one _)).seq_back hcopies (by omega)
        (by omega) rfl (by omega)
    · exact ⟨0, by omega, .pure _ _ _ _, .inl (by simpa using hphase)⟩

theorem moveSingles_copies {w k count : ℕ} (hd : d % k = 0) (hs : s % k = 0) (hb : s ≤ d) :
    Copies w d s (count * k) (moveSingles k count (d + count * k) (s + count * k)) () := by
  induction count with
  | zero => rw [Nat.zero_mul]; exact .pure _ _ _ _
  | succ count ih =>
    have hstep : (count + 1) * k = count * k + k := Nat.succ_mul ..
    have hback (x : ℕ) : x + (count + 1) * k - k = x + count * k := by omega
    rw [moveSingles, hback, hback]
    exact (Copies.word (by rw [Nat.add_mul_mod_self_right, hd])
      (by rw [Nat.add_mul_mod_self_right, hs])).seq_back ih rfl rfl
      hstep hb

theorem moveFour_copies (hd : d % b.wordSize = 0) (hs : s % b.wordSize = 0) :
    Copies b.wordSize d s (4 * b.wordSize)
      (b.moveFour (d + 4 * b.wordSize) (s + 4 * b.wordSize)) () := by
  have hpos := b.wordSize_pos
  have hback (x : ℕ) : x + 4 * b.wordSize - b.wordSize = x + 3 * b.wordSize ∧
      x + 4 * b.wordSize - 2 * b.wordSize = x + 2 * b.wordSize ∧
      x + 4 * b.wordSize - 3 * b.wordSize = x + 1 * b.wordSize ∧
      x + 4 * b.wordSize - 4 * b.wordSize = x + 0 * b.wordSize := by omega
  intro m
  have hend (i : ℕ) (hi : i < 4) : i * b.wordSize + b.wordSize ≤ 4 * b.wordSize := by
    rw [← Nat.succ_mul]
    exact Nat.mul_le_mul_right _ hi
  have hword (m' : Machine) (i : ℕ) (hi : i < 4) : Fills b.wordSize (InRanges d s (4 * b.wordSize))
      (m.mem.copy d s (4 * b.wordSize)) (d + i * b.wordSize) (d + (i + 1) * b.wordSize) m'
      ⟨m'.mem.write (d + i * b.wordSize) (m.mem.word b.wordSize (s + i * b.wordSize)),
        m'.log ++ [.store b.wordSize (d + i * b.wordSize)]⟩ := by
    have := hend i hi
    rw [Nat.succ_mul i, ← Nat.add_assoc]
    refine Fills.store (Access.ok_of_inside rfl (aligned_add hd i) fun j hj => .inl (by omega))
      fun j hj => ?_
    rw [ByteMap.byteOf_word _ _ hj, Nat.add_assoc, Nat.add_assoc, ByteMap.copy_dest _ (by omega)]
  have hload (i : ℕ) (hi : i < 4) :
      (Access.load b.wordSize (s + i * b.wordSize)).Ok b.wordSize (InRanges d s (4 * b.wordSize)) :=
    Access.ok_of_inside rfl (aligned_add hs i) fun j hj => .inr (by have := hend i hi; omega)
  rw [moveFour, (hback d).1, (hback d).2.1, (hback d).2.2.1, (hback d).2.2.2, (hback s).1, (hback s).2.1,
    (hback s).2.2.1, (hback s).2.2.2]
  -- the machine after the four loads
  let loaded : Machine := ⟨m.mem, m.log ++ [.load b.wordSize (s + 3 * b.wordSize)] ++
    [.load b.wordSize (s + 2 * b.wordSize)] ++
    [.load b.wordSize (s + 1 * b.wordSize)] ++ [.load b.wordSize (s + 0 * b.wordSize)]⟩
  have hfills :=
    (((hword loaded 3 (by decide)).trans_down (hword _ 2 (by decide)) (by omega) (by omega)).trans_down
    (hword _ 1 (by decide)) (by omega) (by omega)).trans_down (hword _ 0 (by decide))
    (by omega) (by omega)
  exact ⟨_, rfl, .load (hload 3 (by decide)) (.load (hload 2 (by decide)) (.load (hload 1 (by decide))
    (.load (hload 0 (by decide)) (hfills.copied (by omega) (by omega)))))⟩

theorem moveFours_copies {rounds : ℕ} (hd : d % b.wordSize = 0) (hs : s % b.wordSize = 0) (hb : s ≤ d) :
    Copies b.wordSize d s (rounds * (4 * b.wordSize))
      (b.moveFours rounds (d + rounds * (4 * b.wordSize)) (s + rounds * (4 * b.wordSize))) (d, s) := by
  induction rounds with
  | zero => rw [Nat.zero_mul]; exact .pure _ _ _ _
  | succ rounds ih =>
    have hstep : (rounds + 1) * (4 * b.wordSize) = rounds * (4 * b.wordSize) + 4 * b.wordSize :=
      Nat.succ_mul ..
    have hback (x : ℕ) : x + (rounds + 1) * (4 * b.wordSize) - 4 * b.wordSize =
        x + rounds * (4 * b.wordSize) := by omega
    have haligned (x : ℕ) (hx : x % b.wordSize = 0) : (x + rounds * (4 * b.wordSize)) % b.wordSize =
        0 := by
      rw [← Nat.mul_assoc, Nat.add_mul_mod_self_right, hx]
    have hfour := moveFour_copies (haligned d hd) (haligned s hs)
    rw [Nat.add_assoc, Nat.add_assoc, ← hstep] at hfour
    rw [moveFours, hback, hback]
    exact hfour.seq_back ih rfl rfl hstep hb

/-- The backward loop over re-laned words: the low bytes of the word carried are the source's. -/
theorem moveRelaned_copied {m : Machine} {phase sw words : ℕ} {w1 : b.Word} (hd : d % b.wordSize = 0)
    (hs : sw % b.wordSize = 0) (hphase : phase < b.wordSize) (hb : sw + phase ≤ d)
    (hw : ∀ j < phase, byteOf w1 j = m.mem (sw + words * b.wordSize + j)) :
    ∃ m', b.moveRelaned phase words (d + words * b.wordSize) (sw + words * b.wordSize) w1 m =
      some ((), m') ∧
      Copied b.wordSize d (sw + phase) (words * b.wordSize) m m' := by
  induction words generalizing m w1 with
  | zero => rw [Nat.zero_mul]; exact ⟨m, rfl, .nil _ _ _ m⟩
  | succ words ih =>
    have hstep : (words + 1) * b.wordSize = words * b.wordSize + b.wordSize := Nat.succ_mul ..
    have hback (x : ℕ) : x + (words + 1) * b.wordSize - b.wordSize = x + words * b.wordSize := by omega
    have hmem : m.mem.write (d + words * b.wordSize)
        ((m.mem.word b.wordSize (sw + words * b.wordSize) >>> (8 * phase)) |||
          (w1 <<< (8 * (b.wordSize - phase)))) =
          m.mem.copy (d + words * b.wordSize) (sw + phase + words * b.wordSize) b.wordSize := by
      refine ByteMap.write_eq_copy le_rfl le_rfl fun j hj => ?_
      rw [byteOf_relane _ _ hphase.le hj, ByteMap.copy_dest _ hj]
      split_ifs with h
      · rw [ByteMap.byteOf_word _ _ h]
        congr 1
        omega
      · rw [hw _ (by omega), hstep]
        congr 1
        omega
    have hcopied : Copied b.wordSize (d + words * b.wordSize)
        (sw + phase + words * b.wordSize) b.wordSize m
        ⟨m.mem.write (d + words * b.wordSize)
          ((m.mem.word b.wordSize (sw + words * b.wordSize) >>> (8 * phase)) |||
          (w1 <<< (8 * (b.wordSize - phase)))),
          m.log ++ [.load b.wordSize (sw + words * b.wordSize)] ++
            [.store b.wordSize (d + words * b.wordSize)]⟩ := by
      refine .load ?_ ⟨hmem, [.store b.wordSize (d + words * b.wordSize)], rfl, fun acc hacc => ?_⟩
      · exact Access.ok_of_word (x := sw + words * b.wordSize + phase) rfl (aligned_add hs words)
          (.inr (by omega))
          (by omega) (by omega)
      · obtain rfl := List.mem_singleton.mp hacc
        exact Access.ok_of_inside rfl (aligned_add hd words) fun j hj => .inl (by omega)
    obtain ⟨m', hrun, hrest⟩ := @ih
      ⟨m.mem.write (d + words * b.wordSize)
          ((m.mem.word b.wordSize (sw + words * b.wordSize) >>> (8 * phase)) |||
          (w1 <<< (8 * (b.wordSize - phase)))),
          m.log ++ [.load b.wordSize (sw + words * b.wordSize)] ++
            [.store b.wordSize (d + words * b.wordSize)]⟩
      (m.mem.word b.wordSize (sw + words * b.wordSize)) fun j hj => by
        -- what is carried lies below the word stored
        show _ = m.mem.write _ _ _
        rw [hmem, ByteMap.copy, if_neg (by omega), ByteMap.byteOf_word _ _ (by omega)]
    refine ⟨m', ?_, hstep ▸ hcopied.prepend hrest hb⟩
    rw [moveRelaned, hback, hback]
    exact hrun

/-- The whole words of a backward copy. -/
theorem moveWords_copies {words : ℕ} (hd : d % b.wordSize = 0) (hb : s ≤ d) (hpos : 0 < words) :
    Copies b.wordSize d s (words * b.wordSize)
      (b.moveWords (d + words * b.wordSize) (s + words * b.wordSize) words) () := by
  rw [moveWords, Nat.add_mul_mod_self_right]
  dsimp only
  split_ifs with hphase
  · have hsplit : words * b.wordSize = words % 4 * b.wordSize + words / 4 * (4 * b.wordSize) := by
      rw [← Nat.mul_assoc, ← Nat.add_mul]
      congr 1
      omega
    have hfours :=
      @moveFours_copies b (d + words % 4 * b.wordSize) (s + words % 4 * b.wordSize) (words / 4)
      (aligned_add hd _) (aligned_add hphase _) (by omega)
    rw [Nat.add_assoc, Nat.add_assoc, ← hsplit] at hfours
    exact hfours.bind_back (moveSingles_copies hd hphase hb) rfl rfl hsplit hb
  · obtain ⟨hlt, hle, haligned⟩ := b.phase_spec s
    have hword : s + words * b.wordSize - s % b.wordSize =
        s - s % b.wordSize + words * b.wordSize := by omega
    have hmul : b.wordSize ≤ words * b.wordSize := Nat.le_mul_of_pos_left _ hpos
    intro m
    obtain ⟨m', hrun, hcopied⟩ := @moveRelaned_copied b d
      { m with log := m.log ++ [.load b.wordSize (s - s % b.wordSize + words * b.wordSize)] }
        (s % b.wordSize)
      (s - s % b.wordSize) words
        (m.mem.word b.wordSize (s - s % b.wordSize + words * b.wordSize)) hd haligned hlt (by omega)
      fun j hj => ByteMap.byteOf_word _ _ (by omega)
    rw [show s - s % b.wordSize + s % b.wordSize = s by omega] at hcopied
    rw [hword]
    refine ⟨m', (Exec.bind_run (m := m) rfl).trans hrun, .load ?_ hcopied⟩
    exact Access.ok_of_word (x := s - s % b.wordSize + words * b.wordSize) rfl (aligned_add haligned _)
      (.inr (by omega)) le_rfl (by omega)

/-- **`memmove` copies**, between any ends. -/
theorem memmove_copies (hds : d + n ≤ 2 ^ b.addrBits) (hss : s + n ≤ 2 ^ b.addrBits) :
    Copies b.wordSize d s n (b.memmove d s n) d := by
  rw [memmove]
  split_ifs with hforward
  · exact memcpy_copies (by unfold Forward; omega) hds hss
  · obtain ⟨k, hk, htail, hend⟩ := @moveTail_copies b (d + n) (s + n) n (by omega) (by omega) (by omega)
    refine htail.bind_back ?_ (show d + n - k = d + (n - k) by omega) (by omega) (by omega) (by omega)
    dsimp only
    rw [show d + n - k = d + (n - k) by omega] at hend ⊢
    rw [show s + n - k = s + (n - k) by omega]
    have hsplit : n - k = (n - k) % b.wordSize + (n - k) / b.wordSize * b.wordSize := by
      rw [Nat.add_comm]
      exact (Nat.div_add_mod' _ _).symm
    split_ifs with hwords
    · have haligned : (d + (n - k) % b.wordSize) % b.wordSize = 0 := by
        rcases hend with h | rfl
        · rwa [hsplit, ← Nat.add_assoc, Nat.add_mul_mod_self_right] at h
        · exact absurd (by rw [Nat.sub_self, Nat.zero_div]) hwords
      have hmove := @moveWords_copies b (d + (n - k) % b.wordSize) (s + (n - k) % b.wordSize)
        ((n - k) / b.wordSize) haligned
        (by omega) (Nat.pos_of_ne_zero hwords)
      have hbytes := @moveSingles_copies d s b.wordSize 1 ((n - k) % b.wordSize) (Nat.mod_one _)
        (Nat.mod_one _) (by omega)
      rw [Nat.mul_one] at hbytes
      rw [Nat.add_assoc, Nat.add_assoc, ← hsplit] at hmove
      have hback (x : ℕ) : x + (n - k) - (n - k) / b.wordSize * b.wordSize =
          x + (n - k) % b.wordSize := by omega
      rw [hback, hback]
      exact hmove.seq_back (hbytes.bind_pure fun _ => d) rfl rfl hsplit (by omega)
    · have h := (@moveSingles_copies d s b.wordSize 1 (n - k) (Nat.mod_one _) (Nat.mod_one _)
        (by omega)).bind_pure
        fun _ => d
      rw [Nat.mul_one] at h
      exact h

/-! ## Both functions -/

/-- What a copy of `n` bytes from `src` to `dest` must be on a machine of `w`-byte words. -/
structure WordSafeCopy (w dest src n : ℕ) (m m' : Machine) : Prop where
  /-- The destination has what the source had before. -/
  bytes : ∀ i < n, m'.mem (dest + i) = m.mem (src + i)
  frame : ∀ x, ¬ (dest ≤ x ∧ x < dest + n) → m'.mem x = m.mem x
  accesses : ∃ new, m'.log = m.log ++ new ∧ ∀ acc ∈ new, acc.Ok w (InRanges dest src n)

theorem wordSafeCopy_of_copied {w : ℕ} {m m' : Machine} (h : Copied w d s n m m') :
    WordSafeCopy w d s n m m' :=
  ⟨fun i hi => by rw [h.mem, ByteMap.copy_dest _ hi],
    fun x hx => by rw [h.mem, ByteMap.copy, if_neg hx], h.log⟩

/-- **The copies are right and word-safe.**  For either word size, with or without block copies,
between any ends and for any size: `memmove` always, and `memcpy` where its destination is apart
from the source, equal to it or below it, return the destination and leave there the bytes the
source had before; every other byte of memory is as before; every access is naturally aligned and
keeps to words that hold a byte of the two ranges; and no block is copied onto itself. -/
theorem memcpy_memmove_correct (b : Build) (dest src n : ℕ) (hdest : dest + n < 2 ^ b.addrBits)
    (hsrc : src + n < 2 ^ b.addrBits) (m : Machine) :
    (∃ m', b.memmove dest src n m = some (dest, m') ∧ WordSafeCopy b.wordSize dest src n m m') ∧
      ((dest + n ≤ src ∨ src + n ≤ dest) ∨ dest = src ∨ dest < src →
        ∃ m', b.memcpy dest src n m = some (dest, m') ∧ WordSafeCopy b.wordSize dest src n m m') := by
  constructor
  · obtain ⟨m', hrun, hcopied⟩ := memmove_copies hdest.le hsrc.le m
    exact ⟨m', hrun, wordSafeCopy_of_copied hcopied⟩
  · intro hplace
    have hf : Forward dest src n := by
      unfold Forward
      omega
    obtain ⟨m', hrun, hcopied⟩ := memcpy_copies hf hdest.le hsrc.le m
    exact ⟨m', hrun, wordSafeCopy_of_copied hcopied⟩

/-- The guest with 4-byte words and block copies. -/
def airbender : Build := ⟨4, true, 32, .inl rfl, .inl rfl⟩

/-- Memory with its own address in every byte. -/
def addressed : Machine := ⟨fun x => UInt8.ofNat x, []⟩

/-- The theorem at an overlapping move of 41 bytes, five bytes up and out of phase. -/
theorem memcpy_memmove_correct_overlap :
    (airbender.memmove 69 64 41 addressed).map (fun r => (List.range 41).map fun i => r.2.mem (69 + i)) =
        some ((List.range 41).map fun i => UInt8.ofNat (64 + i)) ∧
    ∃ m', airbender.memmove 69 64 41 addressed = some (69, m') ∧ WordSafeCopy 4 69 64 41 addressed m' :=
  ⟨by decide +kernel, (memcpy_memmove_correct airbender 69 64 41 (by decide) (by decide) addressed).1⟩

end Build
end Zilkworm.Guest
