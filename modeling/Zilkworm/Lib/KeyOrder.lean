/-
# Keys that part ways

Two keys of which neither is a prefix of the other part at one place, and the letters there say
which comes first.  For such keys this is the lexicographic order.
-/
import Mathlib.Order.Lattice
import Mathlib.Data.List.Lex
import Mathlib.Order.Basic

namespace Zilkworm.Lib

open List

variable {A : Type} [LinearOrder A]

/-- `a` and `b` agree on `n` letters and then `a` has the smaller one. -/
def PartAt (n : ℕ) (a b : List A) : Prop :=
  a.take n = b.take n ∧ ∃ x y, a[n]? = some x ∧ b[n]? = some y ∧ x < y

/-- `a` comes before `b`, and is no prefix of it. -/
def Before (a b : List A) : Prop := ∃ n, PartAt n a b

namespace PartAt

variable {n m : ℕ} {a b c : List A}

theorem getElem?_eq (h : PartAt n a b) {i : ℕ} (hi : i < n) : a[i]? = b[i]? := by
  have heq := congrArg (fun l : List A => l[i]?) h.1
  simpa only [getElem?_take, hi, if_true] using heq

theorem lt_length (h : PartAt n a b) : n < a.length ∧ n < b.length := by
  obtain ⟨-, x, y, hx, hy, -⟩ := h
  exact ⟨(List.getElem?_eq_some_iff.mp hx).1, (List.getElem?_eq_some_iff.mp hy).1⟩

/-- Where keys agree they do not part. -/
theorem not_lt (h : PartAt n a b) (h' : a.take m = b.take m) : ¬ n < m := by
  intro hlt
  obtain ⟨-, x, y, hx, hy, hxy⟩ := h
  have heq := congrArg (fun l : List A => l[n]?) h'
  simp only [getElem?_take, hlt, if_true, hx, hy, Option.some.injEq] at heq
  exact hxy.ne heq

theorem asymm (h : PartAt n a b) (h' : PartAt m b a) : False := by
  obtain rfl : n = m :=
    le_antisymm (Nat.not_lt.mp (h'.not_lt h.1.symm)) (Nat.not_lt.mp (h.not_lt h'.1.symm))
  obtain ⟨-, x, y, hx, hy, hxy⟩ := h
  obtain ⟨-, x', y', hx', hy', hxy'⟩ := h'
  rw [hy, Option.some.injEq] at hx'
  rw [hx, Option.some.injEq] at hy'
  subst hx' hy'
  exact lt_asymm hxy hxy'

/-- A key that agrees with `b` beyond the place where `a` parts from `b` parts from `a` there too.
-/
theorem of_take (h : PartAt n a b) (hn : n < m) (hb : b.take m = c.take m) : PartAt n a c := by
  obtain ⟨heq, x, y, hx, hy, hxy⟩ := h
  have htake : b.take n = c.take n := by
    have := congrArg (List.take n) hb
    rwa [take_take, take_take, min_eq_left hn.le] at this
  have hget : b[n]? = (c)[n]? := by
    have := congrArg (fun l : List A => l[n]?) hb
    simpa only [getElem?_take, hn, if_true] using this
  exact ⟨heq.trans htake, x, y, hx, hget ▸ hy, hxy⟩

/-- The same with the keys exchanged. -/
theorem of_take_left (h : PartAt n a b) (hn : n < m) (ha : a.take m = c.take m) : PartAt n c b := by
  obtain ⟨heq, x, y, hx, hy, hxy⟩ := h
  have htake : a.take n = c.take n := by
    have := congrArg (List.take n) ha
    rwa [take_take, take_take, min_eq_left hn.le] at this
  have hget : a[n]? = (c)[n]? := by
    have := congrArg (fun l : List A => l[n]?) ha
    simpa only [getElem?_take, hn, if_true] using this
  exact ⟨htake.symm.trans heq, x, y, hget ▸ hx, hy, hxy⟩

end PartAt

theorem Before.asymm {a b : List A} (h : Before a b) (h' : Before b a) : False := by
  obtain ⟨n, hn⟩ := h
  obtain ⟨m, hm⟩ := h'
  exact hn.asymm hm

/-- Keys that part before each other are ordered. -/
theorem Before.trans {a b c : List A} (h : Before a b) (h' : Before b c) : Before a c := by
  obtain ⟨n, hn⟩ := h
  obtain ⟨m, hm⟩ := h'
  rcases lt_trichotomy n m with hlt | rfl | hgt
  · exact ⟨n, hn.of_take hlt hm.1⟩
  · obtain ⟨heq, x, y, hx, hy, hxy⟩ := hn
    obtain ⟨heq', y', z, hy', hz, hyz⟩ := hm
    rw [hy, Option.some.injEq] at hy'
    subst hy'
    exact ⟨n, heq.trans heq', x, z, hx, hz, hxy.trans hyz⟩
  · exact ⟨m, hm.of_take_left hgt hn.1.symm⟩

/-- Keys that part are no prefixes of each other. -/
theorem Before.not_isPrefix {a b : List A} (h : Before a b) : ¬ a <+: b ∧ ¬ b <+: a := by
  obtain ⟨n, h⟩ := h
  have hne : a[n]? ≠ b[n]? := by
    obtain ⟨-, x, y, hx, hy, hxy⟩ := h
    rw [hx, hy]
    exact fun heq => hxy.ne (Option.some.inj heq)
  refine ⟨fun hp => hne ?_, fun hp => hne ?_⟩
  · exact (prefix_iff_getElem?.mp hp n h.lt_length.1).symm ▸ (getElem?_eq_getElem h.lt_length.1)
  · exact (prefix_iff_getElem?.mp hp n h.lt_length.2) ▸ (getElem?_eq_getElem h.lt_length.2).symm

/-- Two keys behind one prefix, with different letters after it. -/
theorem PartAt.of_cons {front a b : List A} {x y : A} (hxy : x < y) :
    PartAt front.length (front ++ x :: a) (front ++ y :: b) := by
  refine ⟨by rw [take_left, take_left], x, y, ?_, ?_, hxy⟩
  · rw [getElem?_append_right le_rfl, Nat.sub_self]
    rfl
  · rw [getElem?_append_right le_rfl, Nat.sub_self]
    rfl

end Zilkworm.Lib
