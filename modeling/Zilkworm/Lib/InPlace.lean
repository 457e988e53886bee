/-
# Writing into a buffer in place

A program writes at a cursor into a buffer of fixed size and has no result where it would write past
the end.  `Writes p f out` says that from place `p` the program `f` writes exactly `out` there and
leaves the rest of the buffer alone; pieces compose (`Writes.append`), also over the items of a list
(`Writes.forM`), and a program that writes as many bytes as were reserved fills the buffer
(`Writes.fill`).
-/
import Zilkworm.Lib.Words

namespace Zilkworm.Lib

open List

/-- A program with a buffer and a place in it. -/
abbrev Cursor := StateT (Bytes × ℕ) Option

namespace Cursor

/-- Writes bytes at the cursor and moves past them. -/
def put (bytes : Bytes) : Cursor Unit := fun (buf, p) =>
  if p + bytes.length ≤ buf.length then
    some ((), buf.take p ++ bytes ++ buf.drop (p + bytes.length), p + bytes.length)
  else none

/-- The place of the cursor. -/
def place : Cursor ℕ := fun (buf, p) => some (p, buf, p)

/-- The program does what it must not do. -/
def fault : Cursor Unit := fun _ => none

/-- Runs a program under a condition. -/
def onlyIf (c : Prop) [Decidable c] (f : Cursor Unit) : Cursor Unit := if c then f else pure ()

/-- The bytes of `n` from the highest of `len` ones down. -/
def putBig (n : ℕ) : (len : ℕ) → Cursor Unit
  | 0 => pure ()
  | i + 1 => do
    put [UInt8.ofNat (n >>> (8 * i))]
    putBig n i

end Cursor

open Cursor

/-- From place `p` the program writes `out` and leaves the rest alone. -/
def Writes (p : ℕ) (f : Cursor Unit) (out : Bytes) : Prop :=
  ∀ front old rest : Bytes, front.length = p → old.length = out.length →
    f (front ++ (old ++ rest), p) = some ((), front ++ (out ++ rest), p + out.length)

variable {p : ℕ} {f g : Cursor Unit} {a b out : Bytes}

theorem Writes.put (p : ℕ) (bytes : Bytes) : Writes p (put bytes) bytes := by
  rintro front old rest rfl hold
  have htake : (front ++ (old ++ rest)).take front.length = front := take_left
  have hdrop : (front ++ (old ++ rest)).drop (front.length + bytes.length) = rest := by
    rw [← append_assoc, ← hold, ← length_append, drop_left]
  rw [Cursor.put, if_pos (by simp only [length_append]; omega), htake, hdrop, append_assoc]

theorem Writes.nil (p : ℕ) : Writes p (pure ()) [] := by
  rintro front old rest rfl hold
  rw [eq_nil_of_length_eq_zero hold]
  rfl

/-- **Pieces compose.** -/
theorem Writes.append (hf : Writes p f a) (hg : Writes (p + a.length) g b) :
    Writes p (do f; g) (a ++ b) := by
  rintro front old rest rfl hold
  rw [length_append] at hold
  have hsplit : old = old.take a.length ++ old.drop a.length := (take_append_drop _ _).symm
  have hfirst :=
    hf front (old.take a.length) (old.drop a.length ++ rest) rfl (by rw [length_take]; omega)
  have hsecond := hg (front ++ a) (old.drop a.length) rest length_append (by rw [length_drop]; omega)
  change (f (front ++ (old ++ rest), front.length)).bind (fun x => g x.2) = _
  rw [hsplit, append_assoc, hfirst, Option.bind_some]
  change g (front ++ (a ++ (old.drop a.length ++ rest)), front.length + a.length) = _
  rw [← append_assoc, hsecond, length_append, Nat.add_assoc]
  simp only [append_assoc]

/-- A program that asks for its place. -/
theorem Writes.place {f : ℕ → Cursor Unit} (h : Writes p (f p) out) : Writes p (do f (← place)) out := by
  rintro front old rest rfl hold
  exact h front old rest rfl hold

theorem Writes.onlyIf {c : Prop} [Decidable c] (h : c → Writes p f out) :
    Writes p (onlyIf c f) (if c then out else []) := by
  by_cases hc : c
  · rw [Cursor.onlyIf, if_pos hc, if_pos hc]
    exact h hc
  · rw [Cursor.onlyIf, if_neg hc, if_neg hc]
    exact .nil p

/-- **The items of a list one by one.** -/
theorem Writes.forM {α : Type} {f : α → Cursor Unit} {out : α → Bytes} (xs : List α) (p : ℕ)
    (h : ∀ x ∈ xs, ∀ p, Writes p (f x) (out x)) : Writes p (xs.forM f) (xs.flatMap out) := by
  induction xs generalizing p with
  | nil => exact .nil p
  | cons x xs ih =>
    rw [flatMap_cons]
    exact (h x mem_cons_self p).append (ih _ fun y hy => h y (mem_cons_of_mem _ hy))

/-- **A program that writes what was reserved fills the buffer.** -/
theorem Writes.fill {front old : Bytes} (h : Writes front.length f out)
    (hold : old.length = out.length) :
    f (front ++ old, front.length) = some ((), front ++ out, (front ++ out).length) := by
  have := h front old [] rfl hold
  rwa [append_nil, append_nil, ← length_append] at this

/-! ## Numbers -/

theorem Writes.putBig (n len p : ℕ) : Writes p (putBig n len) (toLe len n).reverse := by
  induction len generalizing p with
  | zero => exact .nil p
  | succ i ih =>
    have hout : (toLe (i + 1) n).reverse = [UInt8.ofNat (n >>> (8 * i))] ++ (toLe i n).reverse := by
      rw [toLe_add, reverse_append, Nat.shiftRight_eq_div_pow, Nat.pow_mul]
      rfl
    rw [hout]
    exact (Writes.put p _).append (ih _)

end Zilkworm.Lib
