/-
# Walks along a partial function, and memos of them

A walk from `a` follows `next` a number of steps.  A memo of a walk is the list of the elements met
so far: each is the `next` of the one before, so an element of the memo answers the walk of its own
length (`walk_eq_getElem?`), and where `next` of the last is undefined, every longer walk fails
(`walk_eq_none`).
-/
import Mathlib.Data.List.Chain

namespace Zilkworm.Lib

open List

variable {α : Type} (next : α → Option α)

/-- The element `steps` applications of `next` away, if there is one. -/
def walk : (steps : ℕ) → α → Option α
  | 0, a => some a
  | steps + 1, a => (next a).bind (walk steps)

/-- A memo of a walk: each element is the next of the one before. -/
def IsWalk (l : List α) : Prop :=
  l.IsChain fun a b => next a = some b

variable {next}

/-- **A memo answers the walks it is long enough for.** -/
theorem walk_eq_getElem? {a : α} {l : List α} (h : IsWalk next (a :: l)) {steps : ℕ}
    (hs : steps < (a :: l).length) : walk next steps a = (a :: l)[steps]? := by
  induction l generalizing a steps with
  | nil =>
    obtain rfl : steps = 0 := by simpa using hs
    rfl
  | cons b l ih =>
    obtain ⟨hab, hbl⟩ := isChain_cons_cons.mp h
    cases steps with
    | zero => rfl
    | succ steps =>
      have hs' : steps < (b :: l).length := by simpa using hs
      rw [walk, hab, Option.bind_some, ih hbl hs', getElem?_cons_succ]

/-- **Past the end of a memo there is nothing** where its last element has no next. -/
theorem walk_eq_none {a : α} {l : List α} (h : IsWalk next (a :: l))
    (hend : next ((a :: l).getLast (cons_ne_nil a l)) = none) {steps : ℕ}
    (hs : (a :: l).length ≤ steps) : walk next steps a = none := by
  induction l generalizing a steps with
  | nil =>
    obtain ⟨steps, rfl⟩ : ∃ k, steps = k + 1 := ⟨steps - 1, by simp at hs; omega⟩
    rw [walk, show next a = none from hend, Option.bind_none]
  | cons b l ih =>
    obtain ⟨hab, hbl⟩ := isChain_cons_cons.mp h
    obtain ⟨steps, rfl⟩ : ∃ k, steps = k + 1 := ⟨steps - 1, by simp at hs; omega⟩
    rw [walk, hab, Option.bind_some]
    exact ih hbl (by simpa using hend) (by simpa using hs)

/-- A memo grows by the next of its last element. -/
theorem IsWalk.concat {l : List α} {b : α} (h : IsWalk next l) (hl : l ≠ [])
    (hb : next (l.getLast hl) = some b) : IsWalk next (l ++ [b]) := by
  refine IsChain.append h (isChain_singleton b) fun x hx y hy => ?_
  obtain rfl : b = y := by simpa using hy
  rw [getLast?_eq_some_getLast hl] at hx
  obtain rfl : l.getLast hl = x := by simpa using hx
  exact hb

end Zilkworm.Lib
