/-
# Tables with linear probing

The slots of a table of capacity `c` are free or hold a key with its value.  A key's probe sequence
starts at its home and goes on slot by slot, wrapping at the end.  What makes a search right is that
no slot of a key's probe sequence before the key's own is free (`Probing.reach`): a search that
comes to a free slot has seen every place the key could be (`Probing.absent`).  Nothing is asked of
the homes, so this holds if all keys collide.

`Holds` says that a table and a map have the same entries; the occupied slots are then as many as
the keys of the map (`Probing.card_occupied`).
-/
import Mathlib.Data.Set.Card
import Mathlib.Data.Finset.Card
import Mathlib.Order.Interval.Finset.Nat

namespace Zilkworm.Lib

variable {K V : Type} {c : ℕ} {home : K → ℕ} {slot : ℕ → Option (K × V)} {m : K → Option V}

/-- Keys are unique, and each is reached from its home without a free slot on the way. -/
structure Probing (c : ℕ) (home : K → ℕ) (slot : ℕ → Option (K × V)) : Prop where
  unique : ∀ i < c, ∀ j < c, ∀ k v w, slot i = some (k, v) → slot j = some (k, w) → i = j
  reach : ∀ i < c, ∀ k v, slot i = some (k, v) →
    ∃ d, i = (home k + d) % c ∧ ∀ t < d, slot ((home k + t) % c) ≠ none

/-- The table and the map have the same entries. -/
def Holds (c : ℕ) (slot : ℕ → Option (K × V)) (m : K → Option V) : Prop :=
  ∀ k v, m k = some v ↔ ∃ i < c, slot i = some (k, v)

/-- The slots in use. -/
def occupied (c : ℕ) (slot : ℕ → Option (K × V)) : Finset ℕ :=
  (Finset.range c).filter fun i => (slot i).isSome

theorem Probing.empty (c : ℕ) (home : K → ℕ) :
    Probing c home (fun _ => (none : Option (K × V))) := ⟨nofun, nofun⟩

theorem Holds.empty (c : ℕ) : Holds c (fun _ => (none : Option (K × V))) fun _ => none := by
  intro k v
  simp

/-! ## Searching -/

/-- Where a probe of key `k` from `h` ends: `t` slots with other keys, and then a free slot or the
key. -/
structure Stops (c : ℕ) (slot : ℕ → Option (K × V)) (k : K) (h t : ℕ) : Prop where
  lt : t < c
  passed : ∀ u < t, ∃ e, slot ((h + u) % c) = some e ∧ e.1 ≠ k
  stop : ∀ e, slot ((h + t) % c) = some e → e.1 = k

/-- A probe sequence visits every slot. -/
theorem exists_offset {j : ℕ} (hj : j < c) (h : ℕ) : ∃ d < c, (h + d) % c = j := by
  have hmod : h % c < c := Nat.mod_lt _ (by omega)
  refine ⟨(j + c - h % c) % c, Nat.mod_lt _ (by omega), ?_⟩
  rw [Nat.add_mod, Nat.mod_mod, ← Nat.add_mod, ← Nat.mod_add_mod, show h % c + (j + c - h % c) =
    j + c by omega,
    Nat.add_mod_right, Nat.mod_eq_of_lt hj]

/-- **A probe ends** if a slot is free. -/
theorem exists_stop {j : ℕ} (hj : j < c) (hfree : slot j = none) (k : K) (h : ℕ) :
    ∃ t, Stops c slot k h t := by
  classical
  -- the first place where the probe would stop comes no later than the free slot
  obtain ⟨d, hd, rfl⟩ := exists_offset hj h
  have hstop : ∀ e, slot ((h + d) % c) = some e → e.1 = k := fun e he => by rw [hfree] at he; cases he
  have hex : ∃ t, ∀ e, slot ((h + t) % c) = some e → e.1 = k := ⟨d, hstop⟩
  refine ⟨Nat.find hex, (Nat.find_min' hex hstop).trans_lt hd, fun u hu => ?_, Nat.find_spec hex⟩
  have hnot := Nat.find_min hex hu
  push Not at hnot
  exact hnot

/-- **A probe that ends at a free slot shows the key absent.** -/
theorem Probing.absent (hp : Probing c home slot) {k : K} {t : ℕ} (hstop : Stops c slot k (home k) t)
    (hfree : slot ((home k + t) % c) = none) : ∀ i < c, ∀ v, slot i ≠ some (k, v) := by
  intro i hi v hslot
  obtain ⟨d, hd, hgap⟩ := hp.reach i hi k v hslot
  rcases lt_trichotomy d t with hlt | rfl | hgt
  · obtain ⟨e, he, hne⟩ := hstop.passed d hlt
    rw [← hd, hslot] at he
    cases he
    exact hne rfl
  · rw [← hd, hslot] at hfree
    cases hfree
  · exact hgap t hgt hfree

theorem Holds.eq_none (h : Holds c slot m) {k : K} :
    m k = none ↔ ∀ i < c, ∀ v, slot i ≠ some (k, v) := by
  rw [Option.eq_none_iff_forall_ne_some]
  constructor
  · intro hne i hi v hslot
    exact hne v ((h k v).mpr ⟨i, hi, hslot⟩)
  · intro hne v hv
    obtain ⟨i, hi, hslot⟩ := (h k v).mp hv
    exact hne i hi v hslot

/-! ## Changing a slot -/

theorem Probing.place (hp : Probing c home slot) {k : K} {t : ℕ} (v : V)
    (hstop : Stops c slot k (home k) t) (hfree : slot ((home k + t) % c) = none) :
    Probing c home (Function.update slot ((home k + t) % c) (some (k, v))) := by
  have habsent := hp.absent hstop hfree
  -- a slot that was not free is as before
  have hkeep {i : ℕ} (hi : slot i ≠ none) : Function.update slot ((home k + t) % c)
      (some (k, v)) i = slot i :=
    Function.update_of_ne (fun h => hi (by rw [h, hfree])) _ _
  have hnew {i : ℕ} {k' : K} {w : V} (h : Function.update slot ((home k + t) % c) (some (k, v)) i =
      some (k', w)) :
      (i = (home k + t) % c ∧ k' = k) ∨ slot i = some (k', w) := by
    rcases eq_or_ne i ((home k + t) % c) with rfl | hne
    · rw [Function.update_self] at h
      cases h
      exact .inl ⟨rfl, rfl⟩
    · rw [Function.update_of_ne hne] at h
      exact .inr h
  constructor
  · intro i hi j hj k' w w' hiw hjw
    rcases hnew hiw with ⟨rfl, rfl⟩ | hi' <;> rcases hnew hjw with ⟨rfl, hk⟩ | hj'
    · rfl
    · exact absurd hj' (habsent j hj w')
    · exact absurd (hk ▸ hi') (habsent i hi w)
    · exact hp.unique i hi j hj k' w w' hi' hj'
  · intro i hi k' w hiw
    rcases hnew hiw with ⟨rfl, rfl⟩ | hi'
    · refine ⟨t, rfl, fun u hu => ?_⟩
      obtain ⟨e, he, -⟩ := hstop.passed u hu
      rw [hkeep (by rw [he]; nofun), he]
      nofun
    · obtain ⟨d, hd, hgap⟩ := hp.reach i hi k' w hi'
      exact ⟨d, hd, fun u hu => by rw [hkeep (hgap u hu)]; exact hgap u hu⟩

theorem Probing.replace (hp : Probing c home slot) {i : ℕ} {k : K} {v : V} (w : V)
    (hi : slot i = some (k, v)) :
    Probing c home (Function.update slot i (some (k, w))) := by
  -- the keys in the slots are as before
  have hkey {j : ℕ} {k' : K} {v' : V} (h : Function.update slot i (some (k, w)) j = some (k', v')) :
      ∃ v'', slot j = some (k', v'') := by
    rcases eq_or_ne j i with rfl | hne
    · rw [Function.update_self] at h
      cases h
      exact ⟨v, hi⟩
    · rw [Function.update_of_ne hne] at h
      exact ⟨v', h⟩
  have hsome {j : ℕ} (h : slot j ≠ none) : Function.update slot i (some (k, w)) j ≠ none := by
    rcases eq_or_ne j i with rfl | hne
    · rw [Function.update_self]
      nofun
    · rwa [Function.update_of_ne hne]
  constructor
  · intro a ha b hb k' v₁ v₂ h₁ h₂
    obtain ⟨w₁, hw₁⟩ := hkey h₁
    obtain ⟨w₂, hw₂⟩ := hkey h₂
    exact hp.unique a ha b hb k' w₁ w₂ hw₁ hw₂
  · intro a ha k' v₁ h₁
    obtain ⟨w₁, hw₁⟩ := hkey h₁
    obtain ⟨d, hd, hgap⟩ := hp.reach a ha k' w₁ hw₁
    exact ⟨d, hd, fun u hu => hsome (hgap u hu)⟩

/-- A slot that is free or has the key takes the key's new value. -/
theorem Holds.update [DecidableEq K] (h : Holds c slot m) (hp : Probing c home slot) {i : ℕ}
    (hi : i < c) (k : K) (v : V)
    (hslot : (slot i = none ∧ ∀ j < c, ∀ w, slot j ≠ some (k, w)) ∨ ∃ w, slot i = some (k, w)) :
    Holds c (Function.update slot i (some (k, v))) (Function.update m k (some v)) := by
  intro k' v'
  rcases eq_or_ne k' k with rfl | hk
  · rw [Function.update_self]
    constructor
    · intro hv
      exact ⟨i, hi, by rw [Function.update_self, Option.some.inj hv]⟩
    · rintro ⟨j, hj, hjv⟩
      rcases eq_or_ne j i with rfl | hne
      · rw [Function.update_self] at hjv
        cases hjv
        rfl
      · rw [Function.update_of_ne hne] at hjv
        rcases hslot with ⟨-, habsent⟩ | ⟨w, hw⟩
        · exact absurd hjv (habsent j hj v')
        · exact absurd (hp.unique j hj i hi k' v' w hjv hw) hne
  · rw [Function.update_of_ne hk, h k' v']
    constructor
    · rintro ⟨j, hj, hjv⟩
      refine ⟨j, hj, ?_⟩
      rw [Function.update_of_ne, hjv]
      rintro rfl
      rcases hslot with ⟨hfree, -⟩ | ⟨w, hw⟩
      · rw [hfree] at hjv
        cases hjv
      · rw [hw] at hjv
        cases hjv
        exact hk rfl
    · rintro ⟨j, hj, hjv⟩
      rcases eq_or_ne j i with rfl | hne
      · rw [Function.update_self] at hjv
        cases hjv
        exact absurd rfl hk
      · exact ⟨j, hj, by rwa [Function.update_of_ne hne] at hjv⟩

/-! ## Counting -/

/-- **The occupied slots are as many as the keys of the map.** -/
theorem Probing.card_occupied (hp : Probing c home slot) (h : Holds c slot m) :
    {k | m k ≠ none}.ncard = (occupied c slot).card := by
  have hkeys : some '' {k | m k ≠ none} =
      (fun i => (slot i).map Prod.fst) '' (occupied c slot : Set ℕ) := by
    ext o
    simp only [Set.mem_image, Set.mem_ofPred_eq, occupied, Finset.coe_filter, Finset.mem_range]
    constructor
    · rintro ⟨k, hk, rfl⟩
      obtain ⟨v, hv⟩ := Option.ne_none_iff_exists'.mp hk
      obtain ⟨i, hi, hslot⟩ := (h k v).mp hv
      exact ⟨i, ⟨hi, by rw [hslot]; rfl⟩, by rw [hslot]; rfl⟩
    · rintro ⟨i, ⟨hi, hsome⟩, rfl⟩
      obtain ⟨⟨k, v⟩, hslot⟩ := Option.isSome_iff_exists.mp hsome
      refine ⟨k, ?_, by rw [hslot]; rfl⟩
      rw [(h k v).mpr ⟨i, hi, hslot⟩]
      nofun
  have hinj : Set.InjOn (fun i => (slot i).map Prod.fst) (occupied c slot : Set ℕ) := by
    intro i hi j hj hij
    simp only [occupied, Finset.coe_filter, Finset.mem_range, Set.mem_ofPred_eq] at hi hj
    obtain ⟨⟨k, v⟩, hi'⟩ := Option.isSome_iff_exists.mp hi.2
    obtain ⟨⟨k', w⟩, hj'⟩ := Option.isSome_iff_exists.mp hj.2
    simp only [hi', hj', Option.map_some, Option.some.injEq] at hij
    exact hp.unique i hi.1 j hj.1 k v w hi' (hij ▸ hj')
  rw [← Set.ncard_image_of_injective _ (Option.some_injective K), hkeys, hinj.ncard_image,
    Set.ncard_coe_finset]

theorem card_occupied_place {i : ℕ} (hi : i < c) (hfree : slot i = none) (e : K × V) :
    (occupied c (Function.update slot i (some e))).card = (occupied c slot).card + 1 := by
  have hinsert : occupied c (Function.update slot i (some e)) = insert i (occupied c slot) := by
    ext j
    simp only [occupied, Finset.mem_filter, Finset.mem_range, Finset.mem_insert]
    rcases eq_or_ne j i with rfl | hne
    · simp [hi]
    · simp [hne]
  rw [hinsert, Finset.card_insert_of_notMem]
  simp [occupied, hfree]

theorem card_occupied_replace {i : ℕ} {e' : K × V} (hslot : slot i = some e') (e : K × V) :
    occupied c (Function.update slot i (some e)) = occupied c slot := by
  ext j
  simp only [occupied, Finset.mem_filter, Finset.mem_range]
  rcases eq_or_ne j i with rfl | hne
  · simp [hslot]
  · simp [hne]

/-- With fewer keys than slots, a slot is free. -/
theorem exists_free (h : (occupied c slot).card < c) : ∃ j < c, slot j = none := by
  by_contra hall
  push Not at hall
  have hfull : occupied c slot = Finset.range c := by
    ext j
    simp only [occupied, Finset.mem_filter, Finset.mem_range, and_iff_left_iff_imp]
    exact fun hj => Option.isSome_iff_ne_none.mpr (hall j hj)
  rw [hfull, Finset.card_range] at h
  exact lt_irrefl _ h

end Zilkworm.Lib
