/-
# Tables filled entry by entry, and sorted ones

A table is filled by writing values at places, each place at most once: the places written
hold their values and the others what they held (`foldl_update_of_mem`, `…_of_notMem`), and
the non-zero values of the table are those written (`filled_perm`).  In a table sorted by
key, `lowerBound` finds the start of a key's run, and the run is all the table has of that
key (`sorted_run`).
-/
import Zilkworm.Lib.Memory
import Mathlib.Data.List.Sort
import Mathlib.Data.List.Nodup
import Mathlib.Logic.Function.Basic

namespace Zilkworm.Lib

open List

section Fill

variable {α : Type} {l : List (ℕ × α)}

/-- Writes values at places, in order. -/
def fill (l : List (ℕ × α)) (s : ℕ → α) : ℕ → α := l.foldl (fun s e => Function.update s e.1 e.2) s

theorem fill_cons (e : ℕ × α) (l : List (ℕ × α)) (s : ℕ → α) :
    fill (e :: l) s = fill l (Function.update s e.1 e.2) := rfl

theorem fill_of_notMem {s : ℕ → α} {k : ℕ} (h : k ∉ l.map Prod.fst) : fill l s k = s k := by
  induction l generalizing s with
  | nil => rfl
  | cons e l ih =>
    rw [map_cons, mem_cons, not_or] at h
    rw [fill_cons, ih h.2, Function.update_of_ne h.1]

theorem fill_of_mem {s : ℕ → α} {k : ℕ} {v : α} (hn : (l.map Prod.fst).Nodup) (h : (k, v) ∈ l) :
    fill l s k = v := by
  induction l generalizing s with
  | nil => cases h
  | cons e l ih =>
    rw [map_cons, nodup_cons] at hn
    rw [fill_cons]
    rcases mem_cons.mp h with rfl | h
    · rw [fill_of_notMem hn.1, Function.update_self]
    · exact ih hn.2 h

end Fill

/-- One more value at a place that held zero. -/
theorem update_perm {n k v : ℕ} {s : ℕ → ℕ} (hk : k < n) (h0 : s k = 0) (hv : v ≠ 0) :
    (((range n).map (Function.update s k v)).filter (· ≠ 0)).Perm
      (v :: ((range n).map s).filter (· ≠ 0)) := by
  obtain ⟨l, r, hlr⟩ := append_of_mem (mem_range.mpr hk)
  have hn : (l ++ k :: r).Nodup := hlr ▸ nodup_range
  have hl : ∀ i ∈ l, Function.update s k v i = s i := fun i hi =>
    Function.update_of_ne (fun (h : i = k) => disjoint_of_nodup_append hn hi (h ▸ mem_cons_self)) _ _
  have hr : ∀ i ∈ r, Function.update s k v i = s i := fun i hi =>
    Function.update_of_ne
      (fun (h : i = k) => (nodup_cons.mp (nodup_append.mp hn).2.1).1 (h ▸ hi)) _ _
  rw [hlr, map_append, map_append, map_cons, map_cons, map_congr_left hl,
    map_congr_left hr, Function.update_self, h0, filter_append, filter_append]
  rw [filter_cons_of_pos (by simpa using hv), filter_cons_of_neg (by simp)]
  exact perm_middle

/-- **The non-zero values of a filled table** are those it held and those written. -/
theorem fill_perm {n : ℕ} {l : List (ℕ × ℕ)} {s : ℕ → ℕ} (hn : (l.map Prod.fst).Nodup)
    (hl : ∀ e ∈ l, e.1 < n ∧ s e.1 = 0 ∧ e.2 ≠ 0) :
    (((range n).map (fill l s)).filter (· ≠ 0)).Perm
      (l.map Prod.snd ++ ((range n).map s).filter (· ≠ 0)) := by
  induction l generalizing s with
  | nil => exact Perm.refl _
  | cons e l ih =>
    rw [map_cons, nodup_cons] at hn
    obtain ⟨h1, h2, h3⟩ := hl e mem_cons_self
    refine (ih hn.2 fun x hx => ?_).trans
      (((update_perm h1 h2 h3).append_left _).trans perm_middle)
    obtain ⟨hx1, hx2, hx3⟩ := hl x (mem_cons_of_mem e hx)
    exact ⟨hx1, (Function.update_of_ne (fun h => hn.1 (mem_map.mpr ⟨x, hx, h⟩)) _ _).trans hx2, hx3⟩

/-- A search for what one element at most has does not depend on the order. -/
theorem find?_perm {α : Type} {p : α → Bool} {l l' : List α} (h : l.Perm l')
    (hu : ∀ x ∈ l, ∀ y ∈ l, p x = true → p y = true → x = y) : l.find? p = l'.find? p := by
  cases hx : l.find? p with
  | none =>
    rw [find?_eq_none] at hx
    exact (find?_eq_none.mpr fun y hy => hx y (h.mem_iff.mpr hy)).symm
  | some x =>
    have hmem := mem_of_find?_eq_some hx
    obtain ⟨y, hy⟩ := Option.isSome_iff_exists.mp
      (find?_isSome.mpr ⟨x, h.mem_iff.mp hmem, find?_some hx⟩)
    rw [hy, hu x hmem y (h.mem_iff.mpr (mem_of_find?_eq_some hy)) (find?_some hx) (find?_some hy)]

/-! ## Sorted tables -/

/-- `lowerBound` splits a range whose elements below the key come first. -/
theorem lowerBound_spec {below : ℕ → Bool} {fuel first len : ℕ} (hf : len ≤ fuel)
    (hm : ∀ i j, first ≤ i → i ≤ j → j < first + len → below j = true → below i = true) :
    first ≤ lowerBound below fuel first len ∧ lowerBound below fuel first len ≤ first + len ∧
    (∀ i, first ≤ i → i < lowerBound below fuel first len → below i = true) ∧
    ∀ i, lowerBound below fuel first len ≤ i → i < first + len → below i = false := by
  induction fuel generalizing first len with
  | zero =>
    unfold lowerBound
    exact ⟨le_rfl, by omega, fun i h1 h2 => by omega, fun i h1 h2 => by omega⟩
  | succ fuel ih =>
    unfold lowerBound
    split_ifs with hlen hmid
    · exact ⟨le_rfl, by omega, fun i h1 h2 => by omega, fun i h1 h2 => by omega⟩
    · -- the middle is below: everything before it is
      obtain ⟨h1, h2, h3, h4⟩ := @ih (first + len / 2 + 1) (len - len / 2 - 1) (by omega)
        fun i j hi hij hj => hm i j (by omega) hij (by omega)
      refine ⟨by omega, by omega, fun i hi hlt => ?_, fun i hi hlt => h4 i hi (by omega)⟩
      by_cases hle : i ≤ first + len / 2
      · exact hm i (first + len / 2) hi hle (by omega) hmid
      · exact h3 i (by omega) hlt
    · -- the middle is not below: nothing from it on is
      obtain ⟨h1, h2, h3, h4⟩ := @ih first (len / 2) (by omega)
        fun i j hi hij hj => hm i j hi hij (by omega)
      refine ⟨h1, by omega, h3, fun i hi hlt => ?_⟩
      by_cases hle : i < first + len / 2
      · exact h4 i hi hle
      · exact Bool.eq_false_iff.mpr fun h => hmid (hm _ i (by omega) (by omega) (by omega) h)

/-- In a table sorted by key and at or above `k`, the leading run of `k` is all there is of it. -/
theorem takeWhile_eq_filter {α : Type} {key : α → ℕ} {k : ℕ} {l : List α}
    (hs : l.Pairwise fun x y => key x ≤ key y) (hge : ∀ x ∈ l, k ≤ key x) :
    l.takeWhile (fun x => key x = k) = l.filter fun x => key x = k := by
  induction l with
  | nil => rfl
  | cons x l ih =>
    rw [pairwise_cons] at hs
    by_cases hx : key x = k
    · rw [takeWhile_cons_of_pos (by simpa using hx), filter_cons_of_pos (by simpa using hx),
        ih hs.2 fun y hy => hge y (mem_cons_of_mem x hy)]
    · rw [takeWhile_cons_of_neg (by simpa using hx), filter_cons_of_neg (by simpa using hx)]
      refine (filter_eq_nil_iff.mpr fun y hy => ?_).symm
      have h1 := hs.1 y hy
      have h2 := hge x mem_cons_self
      simp only [decide_eq_true_eq]
      omega

/-- **The run of a key**: from its lower bound on, while the key is met, a sorted table shows all it
has of that key. -/
theorem sorted_run {α : Type} (key : α → ℕ) (d : α) (k : ℕ) {l : List α}
    (hs : l.Pairwise fun x y => key x ≤ key y) :
    ((l.drop (lowerBound (fun i => key (l.getD i d) < k) l.length 0 l.length)).takeWhile
      fun x => key x = k) = l.filter fun x => key x = k := by
  have hget : ∀ {i}, (h : i < l.length) → l.getD i d = l[i] := fun h => by
    rw [getD_eq_getElem?_getD, getElem?_eq_getElem h, Option.getD_some]
  obtain ⟨-, hle, hbelow, hfrom⟩ :=
    @lowerBound_spec (fun i => key (l.getD i d) < k) l.length 0 l.length le_rfl
      fun i j _ hij hj h => by
        rw [decide_eq_true_eq, hget (by omega)] at h ⊢
        rcases Nat.lt_or_eq_of_le hij with hlt | rfl
        · exact lt_of_le_of_lt (pairwise_iff_getElem.mp hs i j (by omega) (by omega) hlt) h
        · exact h
  generalize lowerBound (fun i => decide (key (l.getD i d) < k)) l.length 0 l.length = start at *
  have htake : (l.take start).filter (fun x => key x = k) = [] := filter_eq_nil_iff.mpr fun x hx => by
    obtain ⟨i, hi, rfl⟩ := mem_take_iff_getElem.mp hx
    have := hbelow i (Nat.zero_le i) (by omega)
    rw [decide_eq_true_eq, hget (by omega)] at this
    simp only [decide_eq_true_eq]
    omega
  have hdrop : ∀ x ∈ l.drop start, k ≤ key x := fun x hx => by
    obtain ⟨i, hi, rfl⟩ := mem_drop_iff_getElem.mp hx
    have := hfrom (start + i) (by omega) (by omega)
    rwa [decide_eq_false_iff_not, hget (by omega), not_lt] at this
  calc (l.drop start).takeWhile (fun x => key x = k)
      = (l.drop start).filter fun x => key x = k :=
        takeWhile_eq_filter (hs.sublist (drop_sublist start l)) hdrop
    _ = (l.take start ++ l.drop start).filter fun x => key x = k := by
        rw [filter_append, htake, nil_append]
    _ = l.filter fun x => key x = k := by rw [take_append_drop]

end Zilkworm.Lib
