/-
# 32 bytes between any ends

`copy32_any` reads all of the source, re-laned into words, and then stores the words, re-laned again
where the destination is unaligned, with its first and its last word under a mask.  So it copies 32
bytes between any ends, also overlapping ones (`copy32Any_copies`).
-/
import Zilkworm.Guest.CopyWords

namespace Zilkworm.Guest

open List

namespace Build

open Lib

variable {b : Build} {d s n : ℕ}

theorem loadWords_run (sw i count : ℕ) (m : Machine) :
    b.loadWords sw i count m =
      some ((List.range' i count).map fun t => m.mem.word b.wordSize (sw + t * b.wordSize),
      ⟨m.mem, m.log ++ (List.range' i count).map fun t => .load b.wordSize (sw + t * b.wordSize)⟩) := by
  induction count generalizing i m with
  | zero => simp only [loadWords, List.range'_zero, map_nil, append_nil]; rfl
  | succ count ih =>
    rw [loadWords, Exec.bind_run (m := m) rfl, Exec.bind_run (ih _ _)]
    simp only [List.range'_succ, map_cons, append_assoc, singleton_append]
    rfl

/-- The words hold the bytes at `s`. -/
structure Reads (b : Build) (mem : ByteMap) (s : ℕ) (v : List b.Word) : Prop where
  length : v.length = b.n32
  bytes : ∀ i (h : i < v.length) j, j < b.wordSize → byteOf v[i] j = mem (s + i * b.wordSize + j)

/-- `copy32_any` reads all of the source. -/
theorem load32_reads (d s : ℕ) (m : Machine) :
    ∃ v new, b.load32 s m = some (v, ⟨m.mem, m.log ++ new⟩) ∧ Reads b m.mem s v ∧
      ∀ acc ∈ new, acc.Ok b.wordSize (InRanges d s 32) := by
  have hn32 := b.n32_mul
  obtain ⟨hlt, hle, haligned⟩ := b.phase_spec s
  -- a word that starts inside the last word before the source or inside the source
  have hok (count : ℕ) (hcount : count * b.wordSize < s % b.wordSize + 32 + b.wordSize) (acc : Access)
      (hacc : acc ∈ (List.range' 0 count).map
      fun t => Access.load b.wordSize (s - s % b.wordSize + t * b.wordSize)) :
      acc.Ok b.wordSize (InRanges d s 32) := by
    obtain ⟨t, ht, rfl⟩ := mem_map.mp hacc
    obtain ⟨-, ht⟩ := mem_range'_1.mp ht
    have hmul : (t + 1) * b.wordSize ≤ count * b.wordSize := Nat.mul_le_mul_right _ (by omega)
    rw [Nat.succ_mul] at hmul
    exact Access.ok_of_word (x := max s (s - s % b.wordSize + t * b.wordSize)) rfl
      (aligned_add haligned t)
      (.inr (by omega)) (by omega) (by omega)
  rw [load32]
  split_ifs with hphase
  · refine ⟨_, _, loadWords_run _ _ _ m, ⟨by simp, fun i hi j hj => ?_⟩, hok _ (by omega)⟩
    rw [getElem_map, getElem_range', ByteMap.byteOf_word _ _ hj]
    congr 1
    simp [hphase]
  · refine ⟨_, _, (Exec.bind_run (loadWords_run _ _ _ m)).trans rfl,
      ⟨by simp [relane], fun i hi j hj => ?_⟩, hok _ (by rw [Nat.succ_mul]; omega)⟩
    simp only [relane, getElem_zipWith, getElem_tail, getElem_map, getElem_range']
    rw [byteOf_relane _ _ hlt.le hj]
    have hnext : (0 + 1 * (i + 1)) * b.wordSize = i * b.wordSize + b.wordSize := by ring
    split_ifs with h
    · rw [ByteMap.byteOf_word _ _ h]
      congr 1
      simp only [Nat.zero_add, Nat.one_mul]
      omega
    · rw [ByteMap.byteOf_word _ _ (by omega), hnext]
      congr 1
      omega

theorem storeWords_fills {P : ℕ → Prop} {f : ByteMap} {dw i : ℕ} {vs : List b.Word} (m : Machine)
    (hv : ∀ t (h : t < vs.length) j, j < b.wordSize → byteOf vs[t] j = f (dw + (i + t) * b.wordSize + j))
    (hok : ∀ t < vs.length, (Access.store b.wordSize (dw + (i + t) * b.wordSize)).Ok b.wordSize P) :
    ∃ m', b.storeWords dw i vs m = some ((), m') ∧
      Fills b.wordSize P f (dw + i * b.wordSize) (dw + (i + vs.length) * b.wordSize) m m' := by
  induction vs generalizing i m with
  | nil => exact ⟨m, rfl, .nil _ _ _ _ m⟩
  | cons v vs ih =>
    have hstep : (i + 1) * b.wordSize = i * b.wordSize + b.wordSize := Nat.succ_mul ..
    have hshift (t : ℕ) : i + 1 + t = i + (t + 1) := by omega
    have hmul : (i + 1) * b.wordSize ≤ (i + (v :: vs).length) * b.wordSize :=
      Nat.mul_le_mul_right _ (by rw [length_cons]; omega)
    have hfirst := @Fills.store b.wordSize P f m b.wordSize (dw + i * b.wordSize) v
      (by simpa using hok 0 (by simp))
      fun j hj => hv 0 (by simp) j hj
    obtain ⟨m', hrun, hfills⟩ := ih (i := i + 1)
      ⟨m.mem.write (dw + i * b.wordSize) v, m.log ++ [.store b.wordSize (dw + i * b.wordSize)]⟩
      (fun t ht j hj => by rw [hshift]; exact hv (t + 1) (by simpa using ht) j hj)
      (fun t ht => by rw [hshift]; exact hok (t + 1) (by simpa using ht))
    rw [hstep, ← Nat.add_assoc, hshift] at hfills
    exact ⟨m', hrun, hfirst.trans hfills (by omega) (by rw [hstep] at hmul; omega)⟩

/-- A store to a word that holds a byte of the 32 at `d`. -/
theorem ok_store32 {a : ℕ} (ha : a % b.wordSize = 0) (hlo : d < a + b.wordSize) (hhi : a < d + 32) :
    (Access.store b.wordSize a).Ok b.wordSize (InRanges d s 32) := by
  have := b.wordSize_pos
  exact Access.ok_of_word (x := max a d) rfl ha (.inl (by omega)) (by omega) (by omega)

section Unaligned

variable {mem mem' : ByteMap} {v : List b.Word} {dw p j : ℕ}

/-- The first word of an unaligned copy keeps its bytes below `p`. -/
theorem Reads.first_bytes (hv : Reads b mem s v) (hlt : p < b.wordSize) (hj : j < b.wordSize) :
    byteOf ((mem.word b.wordSize dw &&& ~~~(~~~(0#(8 * b.wordSize)) <<< (8 * p))) |||
      (v.headD 0 <<< (8 * p))) j =
      mem.copy (dw + p) s 32 (dw + j) := by
  have hsize := b.wordSize_le
  have hpos : 0 < v.length := hv.length ▸ b.n32_pos
  have hfirst : v.headD 0 = v[0] := by
    cases v with
    | nil => simp at hpos
    | cons x xs => rfl
  rw [byteOf_keepLow _ _ hj, ByteMap.copy, hfirst]
  split_ifs with h1 h2 h2
  · omega
  · exact ByteMap.byteOf_word _ _ hj
  · rw [hv.bytes 0 hpos _ (by omega)]
    congr 1
    omega
  · omega

/-- A word between joins two of those read. -/
theorem Reads.relane_bytes (hv : Reads b mem s v) (hlt : p < b.wordSize) {t : ℕ}
    (ht : t < (b.relane (8 * (b.wordSize - p)) (8 * p) v).length)
    (hin : (t + 1) * b.wordSize + b.wordSize ≤ 32) (hj : j < b.wordSize) :
    byteOf (b.relane (8 * (b.wordSize - p)) (8 * p) v)[t] j =
      mem.copy (dw + p) s 32 (dw + (t + 1) * b.wordSize + j) := by
  have hlen : t + 1 < v.length := by simp only [relane, length_zipWith, length_tail] at ht; omega
  have hstep : (t + 1) * b.wordSize = t * b.wordSize + b.wordSize := Nat.succ_mul ..
  have hrelane := byteOf_relane v[t] v[t + 1] (show b.wordSize - p ≤ b.wordSize by omega) hj
  rw [show b.wordSize - (b.wordSize - p) = p by omega] at hrelane
  simp only [relane, getElem_zipWith, getElem_tail]
  rw [hrelane, show dw + (t + 1) * b.wordSize + j = dw + p + ((t + 1) * b.wordSize + j - p) by omega,
    ByteMap.copy_dest _ (by omega)]
  split_ifs with h
  · rw [hv.bytes t (by omega) _ h]
    congr 1
    omega
  · rw [hv.bytes (t + 1) hlen _ (by omega)]
    congr 1
    omega

/-- The last word keeps its bytes from `p` on, as they were before the copy. -/
theorem Reads.last_bytes (hv : Reads b mem s v) (hlt : p < b.wordSize) (hj : j < b.wordSize)
    (hkept : mem' (dw + 32 + j) = mem (dw + 32 + j)) :
    byteOf ((mem'.word b.wordSize (dw + 32) &&& (~~~(0#(8 * b.wordSize)) <<< (8 * p))) |||
      (v.getLastD 0 >>> (8 * (b.wordSize - p)))) j = mem.copy (dw + p) s 32 (dw + 32 + j) := by
  have hpos := b.n32_pos
  have hcount : (b.n32 - 1) * b.wordSize + b.wordSize = 32 := by
    rw [← Nat.succ_mul, ← b.n32_mul]
    congr 1
    omega
  rw [byteOf_keepHigh _ _ hlt.le hj]
  split_ifs with h
  · have hlen : v.length - 1 < v.length := by rw [hv.length]; omega
    rw [getLastD_eq_getLast?, getLast?_eq_getElem?, getElem?_eq_getElem hlen, Option.getD_some,
      hv.bytes _ _ _ (by omega), hv.length, show dw + 32 + j = dw + p + (32 + j - p) by omega,
      ByteMap.copy_dest _ (by omega)]
    congr 1
    omega
  · rw [ByteMap.byteOf_word _ _ hj, hkept, ByteMap.copy, if_neg (by omega)]

/-- The stores of `copy32_any` to an unaligned place: the first and the last word under a mask,
those between re-laned. -/
theorem store32_unaligned {m : Machine} (hv : Reads b m.mem s v) (hdw : dw % b.wordSize = 0) (hp : 0 < p)
    (hlt : p < b.wordSize) :
    ∃ m', (do
        let first ← load b.wordSize dw
        store dw ((first &&& ~~~(~~~(0#(8 * b.wordSize)) <<< (8 * p))) ||| (v.headD 0 <<< (8 * p)))
        b.storeRelaned dw v (8 * p) (8 * (b.wordSize - p))
        let last ← load b.wordSize (dw + b.n32 * b.wordSize)
        store (dw + b.n32 * b.wordSize)
          ((last &&& (~~~(0#(8 * b.wordSize)) <<< (8 * p))) |||
            (v.getLastD 0 >>> (8 * (b.wordSize - p))))) m =
        some ((), m') ∧ Copied b.wordSize (dw + p) s 32 m m' := by
  have hn32 := b.n32_mul
  have hsize := b.wordSize_le
  have hpos := b.n32_pos
  have hrel : (b.relane (8 * (b.wordSize - p)) (8 * p) v).length =
      b.n32 - 1 := by simp [relane, hv.length]
  have hin (t : ℕ) (ht : t < b.n32 - 1) : (t + 1) * b.wordSize + b.wordSize ≤ 32 := by
    rw [← Nat.succ_mul, ← hn32]
    exact Nat.mul_le_mul_right _ (by omega)
  have hhead :=
    @Fills.store b.wordSize (InRanges (dw + p) s 32) _ { m with log := m.log ++ [.load b.wordSize dw] }
    b.wordSize dw _ (ok_store32 hdw (by omega) (by omega)) fun j hj => hv.first_bytes hlt hj
  have hhead :=
    hhead.load (Access.ok_of_word (x := dw + p) rfl hdw (.inl (by omega)) (by omega) (by omega))
  obtain ⟨m₂, hrun₂, hmid⟩ :=
    @storeWords_fills b (InRanges (dw + p) s 32) (m.mem.copy (dw + p) s 32) dw 1
    (b.relane (8 * (b.wordSize - p)) (8 * p) v)
    ⟨m.mem.write dw ((m.mem.word b.wordSize dw &&& ~~~(~~~(0#(8 * b.wordSize)) <<< (8 * p))) |||
      (v.headD 0 <<< (8 * p))),
      m.log ++ [.load b.wordSize dw] ++ [.store b.wordSize dw]⟩
    (fun t ht j hj => by
      rw [Nat.add_comm 1 t]
      exact hv.relane_bytes hlt ht (hin t (hrel ▸ ht)) hj)
    (fun t ht => by
      have hbound := hin t (hrel ▸ ht)
      rw [Nat.add_comm 1 t]
      exact ok_store32 (aligned_add hdw _) (by rw [Nat.succ_mul]; omega) (by omega))
  rw [hrel, show 1 + (b.n32 - 1) = b.n32 by omega, hn32, Nat.one_mul] at hmid
  have hboth := hhead.trans hmid (by omega) (by omega)
  have hdw32 : (dw + 32) % b.wordSize = 0 := by
    rw [← hn32]
    exact aligned_add hdw _
  have htail := @Fills.store b.wordSize (InRanges (dw + p) s 32) _
    { m₂ with log := m₂.log ++ [.load b.wordSize (dw + 32)] } b.wordSize (dw + 32) _
    (ok_store32 hdw32 (by omega) (by omega)) fun j hj =>
      hv.last_bytes hlt hj (show m₂.mem (dw + 32 + j) = _ by rw [hboth.mem, if_neg (by omega)])
  have htail :=
    htail.load (Access.ok_of_word (x := dw + 32) rfl hdw32 (.inl (by omega)) le_rfl (by omega))
  rw [hn32]
  exact ⟨_,
    (Exec.bind_run (m := m) rfl).trans ((Exec.bind_run rfl).trans ((Exec.bind_run hrun₂).trans rfl)),
    (hboth.trans htail (by omega) (by omega)).copied (by omega) (by omega)⟩

end Unaligned

/-- `copy32_any` stores the words it has read. -/
theorem store32_copied {m : Machine} {v : List b.Word} (hv : Reads b m.mem s v) :
    ∃ m', b.store32 d v m = some ((), m') ∧ Copied b.wordSize d s 32 m m' := by
  have hn32 := b.n32_mul
  have hback : d - d % b.wordSize + d % b.wordSize = d := Nat.sub_add_cancel (Nat.mod_le _ _)
  have haligned := (b.phase_spec d).2.2
  rw [store32]
  split_ifs with hphase
  · obtain ⟨m', hrun, hfills⟩ :=
      @storeWords_fills b (InRanges d s 32) (m.mem.copy d s 32) (d - d % b.wordSize) 0 v m
      (fun t ht j hj => by
        have hmul : (t + 1) * b.wordSize ≤ b.n32 * b.wordSize :=
          Nat.mul_le_mul_right _ (by rw [← hv.length]; omega)
        rw [Nat.succ_mul] at hmul
        rw [hphase, Nat.sub_zero, Nat.zero_add, Nat.add_assoc, ByteMap.copy_dest _ (by omega),
          hv.bytes t ht j hj, Nat.add_assoc])
      (fun t ht => by
        have hmul : (t + 1) * b.wordSize ≤ b.n32 * b.wordSize :=
          Nat.mul_le_mul_right _ (by rw [← hv.length]; omega)
        rw [Nat.succ_mul] at hmul
        have hpos := b.wordSize_pos
        rw [Nat.zero_add]
        exact ok_store32 (aligned_add haligned t) (by omega) (by omega))
    refine ⟨m', hrun, hfills.copied (by omega) ?_⟩
    rw [hv.length, Nat.zero_add]
    omega
  · have h := store32_unaligned hv haligned (Nat.pos_of_ne_zero hphase) (Nat.mod_lt d b.wordSize_pos)
    rw [hback] at h
    exact h

theorem copy32Any_copies : Copies b.wordSize d s 32 (b.copy32Any d s) () := by
  intro m
  obtain ⟨v, new, hrun, hv, hok⟩ := @load32_reads b d s m
  obtain ⟨m', hrun', hcopied⟩ := @store32_copied b d s ⟨m.mem, m.log ++ new⟩ v hv
  exact ⟨m', (Exec.bind_run hrun).trans hrun', hcopied.loads hok⟩

end Build
end Zilkworm.Guest
