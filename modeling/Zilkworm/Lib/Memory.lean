/-
# A byte string as memory

Reading and overwriting ranges of a byte string in place.  The frame rules say that a
write changes the range it covers and nothing else; a program that keeps records in a
buffer is verified by applying them to ranges that do not meet.
-/
import Zilkworm.Lib.Bytes
import Mathlib.Data.List.Pairwise

namespace Zilkworm.Lib

open List

variable {b b' bs : Bytes} {off p q : ℕ} {rs : List (ℕ × ℕ)}

/-- The byte at an offset, zero past the end. -/
def byteAt (b : Bytes) (off : ℕ) : UInt8 := b.getD off 0

/-- Overwrites the bytes from `off` on; what would fall past the end is dropped. -/
def writeAt (b : Bytes) (off : ℕ) (bs : Bytes) : Bytes :=
  (b.take off ++ bs ++ b.drop (off + bs.length)).take b.length

/-- Two ranges that do not meet. -/
def Apart (a an b bn : ℕ) : Prop := a + an ≤ b ∨ b + bn ≤ a

/-- Of ranges that are pairwise apart, any two different ones are. -/
theorem apart_of_pairwise {pos len : ℕ → ℕ} {l : List ℕ}
    (h : l.Pairwise fun x y => Apart (pos x) (len x) (pos y) (len y)) {x y : ℕ} (hx : x ∈ l) (hy : y ∈ l)
    (hne : x ≠ y) : Apart (pos x) (len x) (pos y) (len y) := by
  have : Std.Symm fun x y => Apart (pos x) (len x) (pos y) (len y) := ⟨fun _ _ ha => Or.symm ha⟩
  exact h.forall hx hy hne

theorem writeAt_eq (h : off + bs.length ≤ b.length) :
    writeAt b off bs = b.take off ++ bs ++ b.drop (off + bs.length) := by
  rw [writeAt, take_of_length_le]
  simp only [length_append, length_take, length_drop]
  omega

/-- Overwriting a field by one of its length. -/
theorem writeAt_append {a x y c : Bytes} (h : y.length = x.length) :
    writeAt (a ++ (x ++ c)) a.length y = a ++ (y ++ c) := by
  rw [writeAt_eq (by simp only [length_append]; omega), take_left, h, ← drop_drop,
    drop_left, drop_left, append_assoc]

/-- After a write the bytes are the written ones inside, and the old ones outside. -/
theorem writeAt_getElem? (h : off + bs.length ≤ b.length) (i : ℕ) :
    (writeAt b off bs)[i]? =
      if off ≤ i ∧ i < off + bs.length then bs[i - off]? else b[i]? := by
  rw [writeAt_eq h]
  have ho : (b.take off).length = off := by rw [length_take]; omega
  by_cases h1 : i < off
  · rw [append_assoc, getElem?_append_left (by omega), if_neg (by omega),
      getElem?_take_of_lt h1]
  · by_cases h2 : i < off + bs.length
    · rw [append_assoc, getElem?_append_right (by omega), ho,
        getElem?_append_left (by omega), if_pos (by omega)]
    · rw [getElem?_append_right (by simp only [length_append]; omega), if_neg (by omega),
        getElem?_drop]
      congr 1
      simp only [length_append, ho]
      omega

@[simp] theorem writeAt_length (b bs : Bytes) (off : ℕ) (h : off + bs.length ≤ b.length) :
    (writeAt b off bs).length = b.length := by
  rw [writeAt_eq h]
  simp only [length_append, length_take, length_drop]
  omega

/-- Two writes one behind the other are one. -/
theorem writeAt_writeAt {mem a b : Bytes} {dst : ℕ} (h : dst + (a ++ b).length ≤ mem.length) :
    writeAt (writeAt mem dst a) (dst + a.length) b = writeAt mem dst (a ++ b) := by
  have hab := h
  rw [length_append] at h
  have ha : dst + a.length ≤ mem.length := by omega
  have hb : dst + a.length + b.length ≤
      (writeAt mem dst a).length := by rw [writeAt_length mem a dst ha]; omega
  refine ext_getElem? fun i => ?_
  rw [writeAt_getElem? hb, writeAt_getElem? ha, writeAt_getElem? hab, length_append, getElem?_append]
  by_cases h1 : dst ≤ i ∧ i < dst + a.length
  · rw [if_neg (by omega), if_pos h1, if_pos (by omega), if_pos (by omega)]
  · by_cases h2 : dst + a.length ≤ i ∧ i < dst + a.length + b.length
    · rw [if_pos h2, if_pos (by omega), if_neg (by omega)]
      congr 1
      omega
    · rw [if_neg h2, if_neg h1, if_neg (by omega)]

theorem slice_getElem? (b : Bytes) (off len i : ℕ) :
    (slice b off len)[i]? = if i < len then b[off + i]? else none := by
  rw [slice, getElem?_take]
  split <;> simp

/-- **Frame rule.**  A range the write does not meet reads as before. -/
theorem slice_writeAt_disjoint {n : ℕ} (h : off + bs.length ≤ b.length)
    (hd : Apart p n off bs.length) : slice (writeAt b off bs) p n = slice b p n := by
  apply ext_getElem?
  intro i
  rw [slice_getElem?, slice_getElem?]
  split
  · rw [writeAt_getElem? h, if_neg]
    unfold Apart at hd
    omega
  · rfl

/-- A range inside the written one reads what was written there. -/
theorem slice_writeAt_inside {n : ℕ} (h : off + bs.length ≤ b.length) (hp : off ≤ p)
    (hn : p + n ≤ off + bs.length) : slice (writeAt b off bs) p n = slice bs (p - off) n := by
  apply ext_getElem?
  intro i
  rw [slice_getElem?, slice_getElem?]
  split
  · rw [writeAt_getElem? h, if_pos (by omega)]
    congr 1
    omega
  · rfl

theorem byteAt_eq_slice (b : Bytes) (off : ℕ) : byteAt b off = (slice b off 1).getD 0 0 := by
  simp only [byteAt, getD_eq_getElem?_getD, slice_getElem?]
  simp

theorem byteAt_writeAt_disjoint (h : off + bs.length ≤ b.length)
    (hd : p < off ∨ off + bs.length ≤ p) : byteAt (writeAt b off bs) p = byteAt b p := by
  rw [byteAt_eq_slice, byteAt_eq_slice, slice_writeAt_disjoint h (by unfold Apart; omega)]

theorem byteAt_writeAt_self {x : UInt8} (h : off < b.length) :
    byteAt (writeAt b off [x]) off = x := by
  rw [byteAt_eq_slice, slice_writeAt_inside (show off + [x].length ≤ b.length from h) le_rfl
    (le_refl (off + 1))]
  simp [slice]

/-! ## Frames -/

/-- **Frame.**  `b'` differs from `b` inside the given ranges only: a range that meets none of
them reads the same. -/
def Frame (rs : List (ℕ × ℕ)) (b b' : Bytes) : Prop :=
  b'.length = b.length ∧
    ∀ q k, (∀ r ∈ rs, Apart q k r.1 r.2) → slice b' q k = slice b q k

theorem Frame.refl (b : Bytes) : Frame [] b b := ⟨rfl, fun _ _ _ => rfl⟩

/-- Two changes in a row change the places of both. -/
theorem Frame.trans {rs' : List (ℕ × ℕ)} {b'' : Bytes} (h : Frame rs b b') (h' : Frame rs' b' b'') :
    Frame (rs ++ rs') b b'' := by
  refine ⟨h'.1.trans h.1, fun q k hq => ?_⟩
  rw [h'.2 q k fun r hr => hq r (mem_append_right _ hr),
    h.2 q k fun r hr => hq r (mem_append_left _ hr)]

/-- The ranges of a frame may be replaced by any that cover them. -/
theorem Frame.mono {rs' : List (ℕ × ℕ)} (h : Frame rs b b')
    (hc : ∀ r ∈ rs, ∃ r' ∈ rs', r'.1 ≤ r.1 ∧ r.1 + r.2 ≤ r'.1 + r'.2) : Frame rs' b b' := by
  refine ⟨h.1, fun q k hq => h.2 q k fun r hr => ?_⟩
  obtain ⟨r', hr', h1, h2⟩ := hc r hr
  have := hq r' hr'
  unfold Apart at this ⊢
  omega

theorem Frame.writeAt (h : off + bs.length ≤ b.length) :
    Frame [(off, bs.length)] b (writeAt b off bs) :=
  ⟨writeAt_length b bs off h, fun q k hq => slice_writeAt_disjoint h (hq (off, bs.length) (by simp))⟩

/-- A slice apart from every changed place is as before. -/
theorem Frame.slice_eq (h : Frame rs b b') {k : ℕ} (hq : ∀ r ∈ rs, Apart q k r.1 r.2) :
    slice b' q k = slice b q k := h.2 q k hq

theorem Frame.byteAt_eq (h : Frame rs b b') (hq : ∀ r ∈ rs, Apart q 1 r.1 r.2) :
    byteAt b' q = byteAt b q := by
  rw [byteAt_eq_slice, byteAt_eq_slice, h.2 q 1 hq]

theorem Frame.u32At_eq (h : Frame rs b b') (hq : ∀ r ∈ rs, Apart q 4 r.1 r.2) :
    u32At b' q = u32At b q := by
  rw [u32At, u32At, h.2 q 4 hq]

theorem Frame.u64At_eq (h : Frame rs b b') (hq : ∀ r ∈ rs, Apart q 8 r.1 r.2) :
    u64At b' q = u64At b q := by
  rw [u64At, u64At, h.2 q 8 hq]

/-- `std::lower_bound` over the indices `[first, first + len)`: `below i` says that element `i`
is below the key.  The search halves the range whether or not the elements are sorted; `len`
rounds are enough. -/
def lowerBound (below : ℕ → Bool) : (fuel first len : ℕ) → ℕ
  | 0, first, _ => first
  | fuel + 1, first, len =>
    if len = 0 then first
    else if below (first + len / 2) then
      lowerBound below fuel (first + len / 2 + 1) (len - len / 2 - 1)
    else lowerBound below fuel first (len / 2)

end Zilkworm.Lib
