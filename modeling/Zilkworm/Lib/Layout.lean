/-
# Bytes laid out in a buffer

`LiesAt b off bs`: the bytes `bs` are those of the buffer `b` from offset `off` on.  What is
written section by section is read back by splitting the statement along `++`, down to the
words of a table, and each word is then read by its own lemma; a format's reader is verified
against its writer without computing on the buffer.
-/
import Zilkworm.Lib.Memory

namespace Zilkworm.Lib

open List

/-- The bytes `bs` lie at offset `off` of the buffer. -/
def LiesAt (b : Bytes) (off : ℕ) (bs : Bytes) : Prop := bs <+: b.drop off

variable {b x y : Bytes} {off : ℕ}

/-- What lies at an offset is the slice there. -/
theorem LiesAt.slice_eq (h : LiesAt b off x) : slice b off x.length = x :=
  (prefix_iff_eq_take.mp h).symm

theorem LiesAt.slice_of_length {n : ℕ} (h : LiesAt b off x) (hn : x.length = n) : slice b off n = x :=
  hn ▸ h.slice_eq

theorem LiesAt.length_le (h : LiesAt b off x) (hx : x ≠ []) : off + x.length ≤ b.length := by
  have hle := List.IsPrefix.length_le h
  rw [length_drop] at hle
  have := length_pos_iff.mpr hx
  omega

/-- A whole buffer lies at its start. -/
theorem LiesAt.self (b : Bytes) : LiesAt b 0 b := prefix_rfl

/-- Two sections lie where they meet. -/
theorem liesAt_append : LiesAt b off (x ++ y) ↔ LiesAt b off x ∧ LiesAt b (off + x.length) y := by
  unfold LiesAt
  constructor
  · rintro ⟨t, ht⟩
    refine ⟨⟨y ++ t, by rw [← ht, append_assoc]⟩, ⟨t, ?_⟩⟩
    rw [← drop_drop, ← ht, append_assoc, drop_left]
  · rintro ⟨⟨t, ht⟩, hy⟩
    rw [← drop_drop, ← ht, drop_left] at hy
    obtain ⟨u, rfl⟩ := hy
    exact ⟨u, by rw [← ht, append_assoc]⟩

/-- A number written at an offset is read back there. -/
theorem LiesAt.u32At_eq {n : ℕ} (h : LiesAt b off (toLe 4 n)) (hn : n < 2 ^ 32) : u32At b off = n := by
  have hs := h.slice_eq
  rw [toLe_length] at hs
  rw [u32At, hs, leNat_toLe]
  exact Nat.mod_eq_of_lt hn

theorem LiesAt.u64At_eq {n : ℕ} (h : LiesAt b off (toLe 8 n)) (hn : n < 2 ^ 64) : u64At b off = n := by
  have hs := h.slice_eq
  rw [toLe_length] at hs
  rw [u64At, hs, leNat_toLe]
  exact Nat.mod_eq_of_lt hn

section Tables

variable {α : Type} {f : α → Bytes} {w : ℕ}

theorem flatMap_length_of_mem {l : List α} (hf : ∀ a ∈ l, (f a).length = w) :
    (l.flatMap f).length = w * l.length := by
  induction l with
  | nil => rfl
  | cons a l ih =>
    rw [flatMap_cons, length_append, ih fun x hx => hf x (mem_cons_of_mem a hx),
      hf a mem_cons_self, length_cons]
    ring

theorem flatMap_length (hf : ∀ a, (f a).length = w) (l : List α) : (l.flatMap f).length = w * l.length :=
  flatMap_length_of_mem fun a _ => hf a

/-- The `i`-th row of a table of rows of one width. -/
theorem LiesAt.row_of_mem {l : List α} (hf : ∀ a ∈ l, (f a).length = w)
    (h : LiesAt b off (l.flatMap f)) {i : ℕ}
    {a : α} (hi : l[i]? = some a) : LiesAt b (off + w * i) (f a) := by
  induction l generalizing off i with
  | nil => cases hi
  | cons x l ih =>
    rw [flatMap_cons] at h
    obtain ⟨hx, hl⟩ := liesAt_append.mp h
    cases i with
    | zero =>
      cases hi
      exact hx
    | succ i =>
      have := ih (fun y hy => hf y (mem_cons_of_mem x hy)) hl hi
      rw [hf x mem_cons_self] at this
      rwa [show off + w * (i + 1) = off + w + w * i by ring]

/-- In a table of rows of one width, row `i` lies `i` widths in. -/
theorem LiesAt.row (hf : ∀ a, (f a).length = w) {l : List α} (h : LiesAt b off (l.flatMap f))
    {i : ℕ} {a : α} (hi : l[i]? = some a) : LiesAt b (off + w * i) (f a) :=
  LiesAt.row_of_mem (fun a _ => hf a) h hi

end Tables

end Zilkworm.Lib
