/-
# Full binary trees of hashes

The leaves of a full tree are a function of their place.  `treeRoot` splits the leaves at the
middle, from the root down; folding the leaves in pairs, from the bottom up, gives the same root
(`treeRoot_pair`).  A list of leaves is continued with one and the same leaf, and a level of pairs
of such a list is again a list, continued with the pair of that leaf with itself
(`paddedLeaf_pairs`).
-/
import Mathlib.Data.List.GetD
import Mathlib.Algebra.Order.Ring.Nat

namespace Zilkworm.Lib

open List

variable {α : Type} (hash : α → α → α)

/-- The root of the full tree of depth `d`. -/
def treeRoot : (d : ℕ) → (leaf : ℕ → α) → α
  | 0, leaf => leaf 0
  | d + 1, leaf => hash (treeRoot d leaf) (treeRoot d fun i => leaf (2 ^ d + i))

/-- A list of leaves continued with `zero`. -/
def paddedLeaf (zero : α) (chunks : List α) (i : ℕ) : α := chunks.getD i zero

/-- The level above a list of leaves. -/
def pairs (zero : α) : List α → List α
  | a :: b :: rest => hash a b :: pairs zero rest
  | [a] => [hash a zero]
  | [] => []

/-- **The level above has the same root.** -/
theorem treeRoot_pair (d : ℕ) (leaf : ℕ → α) :
    treeRoot hash (d + 1) leaf = treeRoot hash d fun i => hash (leaf (2 * i)) (leaf (2 * i + 1)) := by
  induction d generalizing leaf with
  | zero => rfl
  | succ d ih =>
    rw [treeRoot, ih, ih, treeRoot]
    congr 2
    funext i
    rw [Nat.pow_succ, show 2 ^ d * 2 + 2 * i = 2 * (2 ^ d + i) by omega,
      show 2 ^ d * 2 + (2 * i + 1) = 2 * (2 ^ d + i) + 1 by omega]

/-- **The level above a padded list is a padded list.** -/
theorem paddedLeaf_pairs (zero : α) (chunks : List α) (i : ℕ) :
    paddedLeaf (hash zero zero) (pairs hash zero chunks) i =
      hash (paddedLeaf zero chunks (2 * i)) (paddedLeaf zero chunks (2 * i + 1)) := by
  induction chunks using pairs.induct generalizing i with
  | case1 a b rest ih =>
    cases i with
    | zero => rfl
    | succ i =>
      rw [pairs]
      exact ih i
  | case2 a =>
    cases i with
    | zero => rfl
    | succ i => rfl
  | case3 => rfl

theorem treeRoot_pairs (d : ℕ) (zero : α) (chunks : List α) :
    treeRoot hash (d + 1) (paddedLeaf zero chunks) =
      treeRoot hash d (paddedLeaf (hash zero zero) (pairs hash zero chunks)) := by
  rw [treeRoot_pair]
  congr 1
  funext i
  rw [paddedLeaf_pairs]

theorem length_pairs (zero : α) (chunks : List α) :
    (pairs hash zero chunks).length = (chunks.length + 1) / 2 := by
  induction chunks using pairs.induct with
  | case1 a b rest ih =>
    rw [pairs, length_cons, ih, length_cons, length_cons]
    omega
  | case2 a => simp [pairs]
  | case3 => simp [pairs]

/-- Only the leaves of the tree matter. -/
theorem treeRoot_congr {d : ℕ} {leaf leaf' : ℕ → α} (h : ∀ i < 2 ^ d, leaf i = leaf' i) :
    treeRoot hash d leaf = treeRoot hash d leaf' := by
  induction d generalizing leaf leaf' with
  | zero => exact h 0 (by decide)
  | succ d ih =>
    rw [Nat.pow_succ] at h
    rw [treeRoot, treeRoot, ih fun i hi => h i (by omega), ih fun i hi => h (2 ^ d + i) (by omega)]

/-! ## Subtrees that grow -/

/-- Where the leaves of subtree `k` start, the subtrees having 1, 4, 16, … leaves. -/
def subtreeStart : (k : ℕ) → ℕ
  | 0 => 0
  | k + 1 => subtreeStart k + 4 ^ k

/-- The root from subtree `k` on: the root of that subtree and the root from the next one on, and
`zero` where the chunks end. -/
def progressiveRoot (zero : α) (chunks : List α) (k : ℕ) : α :=
  if chunks.length ≤ subtreeStart k then zero
  else hash (treeRoot hash (2 * k) fun i => paddedLeaf zero chunks (subtreeStart k + i))
    (progressiveRoot zero chunks (k + 1))
termination_by chunks.length - subtreeStart k
decreasing_by
  have := Nat.pow_pos (n := k) (by decide : 0 < 4)
  simp only [subtreeStart]
  omega

end Zilkworm.Lib
