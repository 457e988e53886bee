/-
# Sorting in place

What a comparison must satisfy for a sort to make sense (`StrictWeak`), what a sort does
(`SortsBy`), and the insertion sort on an array: the elements before place `i` are in order, the one
at `i` is taken out and the larger ones move up by one until its place is found (`sink`).
-/
import Mathlib.Data.List.Perm.Basic
import Mathlib.Data.List.Induction

namespace Zilkworm.Lib

open List

variable {α : Type} {less : α → α → Bool}

/-- A strict weak order. -/
structure StrictWeak (less : α → α → Bool) : Prop where
  asymm : ∀ a b, less a b = true → less b a = false
  trans : ∀ a b c, less b a = false → less c b = false → less c a = false

/-- No element is below one before it. -/
def Ascending (less : α → α → Bool) (xs : List α) : Prop := xs.Pairwise fun a b => less b a = false

/-- `sort` puts every array in order. -/
def SortsBy (less : α → α → Bool) (sort : List α → List α) : Prop :=
  ∀ xs, (sort xs).Perm xs ∧ Ascending less (sort xs)

/-- A sort for every comparison that is a strict weak order, as the standard library's. -/
def IsSort (sort : ∀ {γ : Type}, (γ → γ → Bool) → List γ → List γ) : Prop :=
  ∀ {γ : Type} (less : γ → γ → Bool), StrictWeak less → SortsBy less (sort less)

/-- Puts `k`, taken from place `j`, in its place among the elements before. -/
def sink (less : α → α → Bool) (k : α) : (j : ℕ) → List α → List α
  | 0, xs => xs.set 0 k
  | j + 1, xs =>
    match xs[j]? with
    | some y => if less k y then sink less k j (xs.set (j + 1) y) else xs.set (j + 1) k
    | none => xs

/-- Sinks the elements from place `i` on. -/
def insertFrom (less : α → α → Bool) : (left i : ℕ) → List α → List α
  | 0, _, xs => xs
  | left + 1, i, xs =>
    match xs[i]? with
    | some k => insertFrom less left (i + 1) (sink less k i xs)
    | none => xs

/-- The insertion sort. -/
def insertionSort (less : α → α → Bool) (xs : List α) : List α := insertFrom less (xs.length - 1) 1 xs

theorem Ascending.concat {xs : List α} {y : α} (hxs : Ascending less xs)
    (hy : ∀ x ∈ xs, less y x = false) :
    Ascending less (xs ++ [y]) := by
  rw [Ascending, pairwise_append]
  exact ⟨hxs, pairwise_singleton _ _, by simpa using hy⟩

/-- **One element sinks to its place.** -/
theorem sink_spec (hless : StrictWeak less) (k : α) {front rest : List α} {x : α}
    (hfront : Ascending less front) :
    ∃ front', sink less k front.length (front ++ x :: rest) = front' ++ rest ∧ front'.Perm (k :: front) ∧
      Ascending less front' := by
  induction front using List.reverseRecOn generalizing x rest with
  | nil => exact ⟨[k], by simp [sink], .refl _, pairwise_singleton _ _⟩
  | append_singleton front y ih =>
    obtain ⟨hinit, -, hbelow⟩ := pairwise_append.mp hfront
    have hy : ∀ z ∈ front, less y z = false := fun z hz => hbelow z hz y (by simp)
    have hread : (front ++ [y] ++ x :: rest)[front.length]? = some y := by simp
    have hset (z : α) : (front ++ [y] ++ x :: rest).set (front.length + 1) z =
        front ++ y :: z :: rest := by
      simp
    rw [length_append, length_singleton, sink, hread]
    dsimp only
    rw [hset, hset]
    by_cases hk : less k y = true
    · rw [if_pos hk]
      obtain ⟨front', hsink, hperm, hasc⟩ := @ih (y :: rest) y hinit
      refine ⟨front' ++ [y], by rw [hsink]; simp, ?_, hasc.concat fun z hz => ?_⟩
      · exact (hperm.append_right [y]).trans (by simp)
      · rcases mem_cons.mp (hperm.mem_iff.mp hz) with rfl | hz
        · exact hless.asymm _ _ hk
        · exact hy z hz
    · rw [if_neg hk]
      rw [Bool.not_eq_true] at hk
      refine ⟨front ++ [y] ++ [k], by simp, perm_append_singleton _ _, hfront.concat fun z hz => ?_⟩
      rcases mem_append.mp hz with hz | hz
      · exact hless.trans z y k (hy z hz) hk
      · rw [mem_singleton.mp hz]
        exact hk

theorem insertFrom_spec (hless : StrictWeak less) {front rest : List α} (hfront : Ascending less front) :
    (insertFrom less rest.length front.length (front ++ rest)).Perm (front ++ rest) ∧
      Ascending less (insertFrom less rest.length front.length (front ++ rest)) := by
  induction rest generalizing front with
  | nil =>
    rw [append_nil]
    exact ⟨.refl _, hfront⟩
  | cons k rest ih =>
    obtain ⟨front', hsink, hperm, hasc⟩ := @sink_spec _ _ hless k front rest k hfront
    have hlen : front'.length = front.length + 1 := hperm.length_eq
    obtain ⟨hperm', hasc'⟩ := ih hasc
    have hread : (front ++ k :: rest)[front.length]? = some k := by simp
    rw [length_cons, insertFrom, hread]
    dsimp only
    rw [hsink, ← hlen]
    refine ⟨hperm'.trans ?_, hasc'⟩
    exact (hperm.append_right rest).trans (perm_middle.symm)

/-- **The insertion sort sorts.** -/
theorem insertionSort_sorts (hless : StrictWeak less) : SortsBy less (insertionSort less) := by
  intro xs
  cases xs with
  | nil => exact ⟨.refl _, .nil⟩
  | cons x xs => exact @insertFrom_spec _ _ hless [x] xs (pairwise_singleton _ _)

end Zilkworm.Lib
