/-
# Placing keys by displacement

Hash, displace and compress: keys fall into buckets, and each bucket is placed as a whole
with a displacement that sends its keys to distinct free slots.  A bucket that no
displacement places is *spilled*: its keys take the displacement zero, whose slots another
bucket's keys may own, and are kept elsewhere.  A reader that finds a key of another bucket
in a slot gives up, so the owners of spilled keys' slots have to be spilled too
(`coSpill`); then no slot of a key that stays is shared (`coSpill_unshared`).

Keys and slots are numbers, and `pos d k` is the slot the displacement `d` sends the key `k`
to.
-/
import Zilkworm.Lib.Bytes
import Mathlib.Data.Finset.Card
import Mathlib.Data.List.Nodup
import Mathlib.Logic.Function.Basic

namespace Zilkworm.Lib

open List

/-- The first value a search finds among `fuel` candidates from `d` on. -/
def firstSome {α : Type} (f : ℕ → Option α) : (fuel d : ℕ) → Option α
  | 0, _ => none
  | fuel + 1, d => match f d with
    | some a => some a
    | none => firstSome f fuel (d + 1)

/-- What a search finds is found first. -/
theorem firstSome_eq_some {α : Type} {f : ℕ → Option α} {fuel d : ℕ} {a : α}
    (h : firstSome f fuel d = some a) :
    ∃ e, d ≤ e ∧ e < d + fuel ∧ f e = some a ∧ ∀ e', d ≤ e' → e' < e → f e' = none := by
  induction fuel generalizing d with
  | zero => cases h
  | succ fuel ih =>
    unfold firstSome at h
    split at h
    · rename_i hd
      cases h
      exact ⟨d, le_rfl, by omega, hd, fun e' h1 h2 => by omega⟩
    · rename_i hd
      obtain ⟨e, h1, h2, h3, h4⟩ := ih h
      refine ⟨e, by omega, by omega, h3, fun e' he hlt => ?_⟩
      rcases Nat.eq_or_lt_of_le he with rfl | he
      · exact hd
      · exact h4 e' he hlt

/-- The search fails exactly if every candidate does. -/
theorem firstSome_eq_none_iff {α : Type} {f : ℕ → Option α} {fuel d : ℕ} :
    firstSome f fuel d = none ↔ ∀ e, d ≤ e → e < d + fuel → f e = none := by
  induction fuel generalizing d with
  | zero => exact ⟨fun _ e h1 h2 => by omega, fun _ => rfl⟩
  | succ fuel ih =>
    unfold firstSome
    cases hd : f d with
    | some a =>
      refine ⟨nofun, fun h => ?_⟩
      rw [h d le_rfl (by omega)] at hd
      cases hd
    | none =>
      rw [ih]
      constructor
      · intro h e h1 h2
        rcases Nat.eq_or_lt_of_le h1 with rfl | h1
        · exact hd
        · exact h e h1 (by omega)
      · intro h e h1 h2
        exact h e (by omega) (by omega)

namespace Displace

/-- The slots a placement has given out.  `owner` tells which key a slot holds, `slot` the slot of a
key and `disp` the displacement of a bucket. -/
structure Placement (δ : Type) where
  owner : ℕ → Option ℕ
  slot : ℕ → ℕ
  disp : ℕ → δ
  spilled : List ℕ

/-- The slots of a bucket's keys, if they are free and distinct; `trial` are the slots of the keys
before. -/
def tryPositions (owner : ℕ → Option ℕ) (pos : ℕ → ℕ) : (bucket trial : List ℕ) → Option (List ℕ)
  | [], trial => some trial
  | k :: ks, trial =>
    if (owner (pos k)).isSome ∨ pos k ∈ trial then none
    else tryPositions owner pos ks (trial ++ [pos k])

/-- Gives each key its slot. -/
def assign {δ : Type} (keySlots : List (ℕ × ℕ)) (p : Placement δ) : Placement δ :=
  keySlots.foldl (fun p ks =>
    { p with owner := Function.update p.owner ks.2 (some ks.1), slot := Function.update p.slot ks.1 ks.2 }) p

/-- Places a bucket with the displacement and the slots a search has found, or spills it. -/
def placeBucket {δ : Type} (pos : δ → ℕ → ℕ) (zero : δ) (b : ℕ) (bucket : List ℕ)
    (found : Option (δ × List ℕ)) (p : Placement δ) : Placement δ :=
  match found with
  | some (d, slots) =>
    let p := assign (bucket.zip slots) p
    { p with disp := Function.update p.disp b d }
  | none =>
    { p with
      disp := Function.update p.disp b zero
      slot := fun k => if k ∈ bucket then pos zero k else p.slot k
      spilled := p.spilled ++ bucket }

/-- Spills the owners of the slots of spilled keys, from the first of `pending` on: the keys that
join. -/
def coSpill (slot : ℕ → ℕ) : (fuel : ℕ) → (pending : List ℕ) → (owner : ℕ → Option ℕ) → List ℕ
  | 0, _, _ => []
  | _ + 1, [], _ => []
  | fuel + 1, k :: ks, owner =>
    match owner (slot k) with
    | none => coSpill slot fuel ks owner
    | some o => o :: coSpill slot fuel (ks ++ [o]) (Function.update owner (slot k) none)

/-! ## Positions -/

section Positions

variable {owner : ℕ → Option ℕ} {pos : ℕ → ℕ} {bucket trial slots : List ℕ}

/-- **A successful trial** sends the bucket's keys to free slots, all distinct. -/
theorem tryPositions_eq_some (h : tryPositions owner pos bucket trial = some slots) (hn : trial.Nodup) :
    slots = trial ++ bucket.map pos ∧ slots.Nodup ∧ ∀ k ∈ bucket, owner (pos k) = none := by
  induction bucket generalizing trial with
  | nil =>
    cases h
    exact ⟨by simp, hn, by simp⟩
  | cons k ks ih =>
    unfold tryPositions at h
    split_ifs at h with hbad
    obtain ⟨hfree, hnew⟩ := not_or.mp hbad
    obtain ⟨h1, h2, h3⟩ := ih h (nodup_append.mpr ⟨hn, nodup_singleton _, fun a ha b hb => by
      rw [mem_singleton] at hb
      rintro rfl
      exact hnew (hb ▸ ha)⟩)
    refine ⟨by simpa using h1, h2, fun j hj => ?_⟩
    rcases mem_cons.mp hj with rfl | hj
    · simpa using hfree
    · exact h3 j hj

/-- A trial of a bucket with free and distinct slots succeeds. -/
theorem tryPositions_isSome (hn : (trial ++ bucket.map pos).Nodup)
    (hfree : ∀ k ∈ bucket, owner (pos k) = none) :
    tryPositions owner pos bucket trial = some (trial ++ bucket.map pos) := by
  induction bucket generalizing trial with
  | nil => simp [tryPositions]
  | cons k ks ih =>
    rw [map_cons, ← singleton_append, ← append_assoc] at hn
    have hnew : pos k ∉ trial := fun hmem => by
      rw [append_assoc, nodup_append] at hn
      exact hn.2.2 _ hmem _ (mem_append_left _ (mem_singleton_self _)) rfl
    rw [tryPositions, if_neg (by simp [hfree k mem_cons_self, hnew]),
      ih hn fun j hj => hfree j (mem_cons_of_mem k hj)]
    simp

end Positions

/-! ## Assigning slots -/

section Assign

variable {δ : Type} {l : List (ℕ × ℕ)}

/-- Assigning slots leaves the displacements and the spilled keys alone. -/
theorem assign_rest (p : Placement δ) :
    (assign l p).disp = p.disp ∧ (assign l p).spilled = p.spilled := by
  induction l generalizing p with
  | nil => exact ⟨rfl, rfl⟩
  | cons ks l ih => exact ih _

/-- Assigning to distinct slots makes each key the owner of its slot, and no other slot changes. -/
theorem assign_owner (p : Placement δ) (hn : (l.map Prod.snd).Nodup) :
    (∀ ks ∈ l, (assign l p).owner ks.2 = some ks.1) ∧
      ∀ s, s ∉ l.map Prod.snd → (assign l p).owner s = p.owner s := by
  induction l generalizing p with
  | nil => exact ⟨by simp, fun _ _ => rfl⟩
  | cons ks l ih =>
    obtain ⟨hnew, hn⟩ := nodup_cons.mp hn
    obtain ⟨h1, h2⟩ := ih { p with
      owner := Function.update p.owner ks.2 (some ks.1), slot := Function.update p.slot ks.1 ks.2 } hn
    refine ⟨fun x hx => ?_, fun s hs => ?_⟩
    · rcases mem_cons.mp hx with rfl | hx
      · exact (h2 _ hnew).trans (Function.update_self ..)
      · exact h1 x hx
    · rw [map_cons, mem_cons, not_or] at hs
      exact (h2 s hs.2).trans (Function.update_of_ne hs.1 _ _)

/-- Assigning to distinct keys sends each to its slot, and no other key moves. -/
theorem assign_slot (p : Placement δ) (hn : (l.map Prod.fst).Nodup) :
    (∀ ks ∈ l, (assign l p).slot ks.1 = ks.2) ∧
      ∀ k, k ∉ l.map Prod.fst → (assign l p).slot k = p.slot k := by
  induction l generalizing p with
  | nil => exact ⟨by simp, fun _ _ => rfl⟩
  | cons ks l ih =>
    obtain ⟨hnew, hn⟩ := nodup_cons.mp hn
    obtain ⟨h1, h2⟩ := ih { p with
      owner := Function.update p.owner ks.2 (some ks.1), slot := Function.update p.slot ks.1 ks.2 } hn
    refine ⟨fun x hx => ?_, fun s hs => ?_⟩
    · rcases mem_cons.mp hx with rfl | hx
      · exact (h2 _ hnew).trans (Function.update_self ..)
      · exact h1 x hx
    · rw [map_cons, mem_cons, not_or] at hs
      exact (h2 s hs.2).trans (Function.update_of_ne hs.1 _ _)

end Assign

/-! ## Placing buckets -/

/-- **What a placement knows** of `n` keys after some buckets (`done`): a key of such a bucket has
the slot its bucket's displacement sends it to, and owns it unless the bucket was spilled; owners
are keys of such buckets. -/
structure Placement.Sound {δ : Type} (pos : δ → ℕ → ℕ) (bucketOf : ℕ → ℕ) (n : ℕ) (done : Set ℕ)
    (p : Placement δ) : Prop where
  slot : ∀ k < n, bucketOf k ∈ done → p.slot k = pos (p.disp (bucketOf k)) k
  placed : ∀ k < n, bucketOf k ∈ done → k ∈ p.spilled ∨ p.owner (p.slot k) = some k
  owner : ∀ s k, p.owner s = some k → k < n ∧ bucketOf k ∈ done ∧ p.slot k = s
  spilled : ∀ k ∈ p.spilled, k < n ∧ bucketOf k ∈ done
  kept : ∀ s k, p.owner s = some k → k ∉ p.spilled

section Place

variable {δ : Type} {pos : δ → ℕ → ℕ} {bucketOf : ℕ → ℕ} {n b : ℕ} {done : Set ℕ} {p : Placement δ}
  {bucket : List ℕ}

/-- **One bucket.**  Placed with slots a trial found, or spilled, it leaves the placement sound. -/
theorem Placement.Sound.placeBucket (h : p.Sound pos bucketOf n done) (hb : b ∉ done)
    (hmem : ∀ k, k ∈ bucket ↔ k < n ∧ bucketOf k = b) (hnodup : bucket.Nodup) (zero : δ)
    {found : Option (δ × List ℕ)}
    (hfound : ∀ d slots, found = some (d, slots) → tryPositions p.owner (pos d) bucket [] = some slots) :
    (Displace.placeBucket pos zero b bucket found p).Sound pos bucketOf n (insert b done) := by
  have hother : ∀ k, bucketOf k ∈ done → bucketOf k ≠ b := fun k hk heq => hb (heq ▸ hk)
  have hout : ∀ k, bucketOf k ∈ done → k ∉ bucket := fun k hk hin => hother k hk ((hmem k).mp hin).2
  cases found with
  | none =>
    refine ⟨fun k hk hd => ?_, fun k hk hd => ?_, fun s k hs => ?_, fun k hk => ?_, fun s k hs hk => ?_⟩
    · rcases hd with heq | hd
      · simp only [Displace.placeBucket, heq, Function.update_self, if_pos ((hmem k).mpr ⟨hk, heq⟩)]
      · simp only [Displace.placeBucket, if_neg (hout k hd), Function.update_of_ne (hother k hd)]
        exact h.slot k hk hd
    · rcases hd with heq | hd
      · exact .inl (mem_append_right _ ((hmem k).mpr ⟨hk, heq⟩))
      · rcases h.placed k hk hd with hs | ho
        · exact .inl (mem_append_left _ hs)
        · right
          simp only [Displace.placeBucket, if_neg (hout k hd)]
          exact ho
    · obtain ⟨h1, h2, h3⟩ := h.owner s k hs
      refine ⟨h1, .inr h2, ?_⟩
      simp only [Displace.placeBucket, if_neg (hout k h2)]
      exact h3
    · rcases mem_append.mp hk with hk | hk
      · exact ⟨(h.spilled k hk).1, .inr (h.spilled k hk).2⟩
      · exact ⟨((hmem k).mp hk).1, .inl ((hmem k).mp hk).2⟩
    · rcases mem_append.mp hk with hk | hk
      · exact h.kept s k hs hk
      · exact hout k (h.owner s k hs).2.1 hk
  | some r =>
    obtain ⟨d, slots⟩ := r
    obtain ⟨hslots, hslotsNodup, hfree⟩ := tryPositions_eq_some (hfound d slots rfl) nodup_nil
    rw [nil_append] at hslots
    subst hslots
    have hfst : (bucket.zip (bucket.map (pos d))).map Prod.fst = bucket :=
      map_fst_zip (by simp)
    have hsnd : (bucket.zip (bucket.map (pos d))).map Prod.snd = bucket.map (pos d) :=
      map_snd_zip (by simp)
    obtain ⟨ho1, ho2⟩ :=
      assign_owner p (l := bucket.zip (bucket.map (pos d))) (by rw [hsnd]; exact hslotsNodup)
    obtain ⟨hs1, hs2⟩ :=
      assign_slot p (l := bucket.zip (bucket.map (pos d))) (by rw [hfst]; exact hnodup)
    obtain ⟨hr1, hr2⟩ := assign_rest (l := bucket.zip (bucket.map (pos d))) p
    have hzip : ∀ k ∈ bucket, (k, pos d k) ∈ bucket.zip (bucket.map (pos d)) := by
      intro k hk
      obtain ⟨i, hi, rfl⟩ := getElem_of_mem hk
      exact mem_iff_getElem.mpr ⟨i, by simpa using hi, by simp⟩
    rw [hfst] at hs2
    rw [hsnd] at ho2
    refine ⟨fun k hk hd => ?_, fun k hk hd => ?_, fun s k hs => ?_, fun k hk => ?_, fun s k hs hk => ?_⟩
    · simp only [Displace.placeBucket, hr1]
      rcases hd with heq | hd
      · rw [heq, Function.update_self]
        exact hs1 _ (hzip k ((hmem k).mpr ⟨hk, heq⟩))
      · rw [Function.update_of_ne (hother k hd), hs2 k (hout k hd)]
        exact h.slot k hk hd
    · simp only [Displace.placeBucket, hr2]
      rcases hd with heq | hd
      · have hin := hzip k ((hmem k).mpr ⟨hk, heq⟩)
        right
        rw [hs1 _ hin]
        exact ho1 _ hin
      · rcases h.placed k hk hd with hsp | ho
        · exact .inl hsp
        · right
          rw [hs2 k (hout k hd), ho2, ho]
          intro hin
          -- the key's slot is taken, and the bucket's slots were free
          obtain ⟨j, hj, hpos⟩ := mem_map.mp hin
          rw [← hpos, hfree j hj] at ho
          cases ho
    · simp only [Displace.placeBucket] at hs ⊢
      by_cases hin : s ∈ bucket.map (pos d)
      · obtain ⟨j, hj, rfl⟩ := mem_map.mp hin
        have hown := ho1 _ (hzip j hj)
        rw [hown] at hs
        cases hs
        exact ⟨((hmem j).mp hj).1, .inl ((hmem j).mp hj).2, hs1 _ (hzip j hj)⟩
      · rw [ho2 s hin] at hs
        obtain ⟨h1, h2, h3⟩ := h.owner s k hs
        exact ⟨h1, .inr h2, (hs2 k (hout k h2)).trans h3⟩
    · simp only [Displace.placeBucket, hr2] at hk
      exact ⟨(h.spilled k hk).1, .inr (h.spilled k hk).2⟩
    · simp only [Displace.placeBucket, hr2] at hs hk
      by_cases hin : s ∈ bucket.map (pos d)
      · obtain ⟨j, hj, rfl⟩ := mem_map.mp hin
        have hown := ho1 _ (hzip j hj)
        rw [hown] at hs
        cases hs
        exact hout j (h.spilled j hk).2 hj
      · rw [ho2 s hin] at hs
        exact h.kept s k hs hk

end Place

/-! ## Spilling the owners -/

section CoSpill

variable {slot : ℕ → ℕ} {n : ℕ}

/-- The keys that own their slots. -/
def owners (slot : ℕ → ℕ) (n : ℕ) (owner : ℕ → Option ℕ) : Finset ℕ :=
  (Finset.range n).filter fun k => owner (slot k) = some k

/-- Clearing the slot of a pending key takes its owner, and no other key, from the owners. -/
theorem owners_clear {owner : ℕ → Option ℕ} {k o : ℕ} (hown : ∀ s k, owner s = some k →
    k < n ∧ slot k = s) (ho : owner (slot k) = some o) :
    (owners slot n (Function.update owner (slot k) none)).card + 1 ≤ (owners slot n owner).card := by
  obtain ⟨hlt, hso⟩ := hown _ _ ho
  have hmem : o ∈ owners slot n owner := by simp [owners, hlt, hso, ho]
  have hsub : owners slot n (Function.update owner (slot k) none) ⊆ (owners slot n owner).erase o := by
    intro j hj
    simp only [owners, Finset.mem_filter, Finset.mem_range] at hj
    by_cases hsj : slot j = slot k
    · rw [hsj, Function.update_self] at hj
      cases hj.2
    · rw [Function.update_of_ne hsj] at hj
      refine Finset.mem_erase.mpr ⟨fun heq => hsj (heq ▸ hso), ?_⟩
      simpa [owners] using hj
  have := Finset.card_le_card hsub
  rw [Finset.card_erase_of_mem hmem] at this
  have := Finset.card_pos.mpr ⟨o, hmem⟩
  omega

/-- **The loop that spills owners**, with `seen` behind it: in the end the slot of every spilled key
is free, and every other key owns its slot. -/
theorem coSpill_spec {fuel : ℕ} {pending seen : List ℕ} {owner : ℕ → Option ℕ}
    (hown : ∀ s k, owner s = some k → k < n ∧ slot k = s) (hseen : ∀ k ∈ seen, owner (slot k) = none)
    (hrest : ∀ k < n, k ∉ seen → k ∉ pending → owner (slot k) = some k)
    (hfuel : pending.length + (owners slot n owner).card ≤ fuel) :
    ∃ owner' : ℕ → Option ℕ,
      (∀ k ∈ seen ++ pending ++ coSpill slot fuel pending owner, owner' (slot k) = none) ∧
        ∀ k < n, k ∉ seen ++ pending ++ coSpill slot fuel pending owner → owner' (slot k) = some k := by
  induction fuel generalizing pending seen owner with
  | zero =>
    obtain rfl : pending = [] := length_eq_zero_iff.mp (by omega)
    exact ⟨owner, by simpa [coSpill] using hseen, fun k hk hn => hrest k hk (by simp_all) (by simp)⟩
  | succ fuel ih =>
    cases pending with
    | nil =>
      exact ⟨owner, by simpa [coSpill] using hseen, fun k hk hn => hrest k hk (by simp_all) (by simp)⟩
    | cons k ks =>
      rw [length_cons] at hfuel
      unfold coSpill
      cases ho : owner (slot k) with
      | none =>
        obtain ⟨owner', h1, h2⟩ := @ih ks (seen ++ [k]) owner hown
          (fun j hj => by
            rcases mem_append.mp hj with hj | hj
            · exact hseen j hj
            · rw [mem_singleton.mp hj, ho])
          (fun j hj hjs hjp => hrest j hj (fun h => hjs (mem_append_left _ h)) (fun h => by
            rcases mem_cons.mp h with rfl | h
            · exact hjs (mem_append_right _ (mem_singleton_self _))
            · exact hjp h))
          (by omega)
        refine ⟨owner', fun j hj => h1 j (by simpa using hj), fun j hj hn => h2 j hj (by simpa using hn)⟩
      | some o =>
        have hcard := owners_clear hown ho
        obtain ⟨owner', h1, h2⟩ := @ih (ks ++ [o]) (seen ++ [k]) (Function.update owner (slot k) none)
          (fun s j hj => by
            by_cases hs : s = slot k
            · rw [hs, Function.update_self] at hj; cases hj
            · rw [Function.update_of_ne hs] at hj; exact hown s j hj)
          (fun j hj => by
            by_cases hs : slot j = slot k
            · rw [hs, Function.update_self]
            · rw [Function.update_of_ne hs]
              rcases mem_append.mp hj with hj | hj
              · exact hseen j hj
              · exact absurd (congrArg slot (mem_singleton.mp hj)) hs)
          (fun j hj hjs hjp => by
            simp only [mem_append, mem_singleton, not_or] at hjs hjp
            have hjo := hrest j hj hjs.1 (by simp [hjs.2, hjp.1])
            by_cases hs : slot j = slot k
            · rw [hs, ho] at hjo
              exact absurd (Option.some.inj hjo).symm hjp.2
            · rw [Function.update_of_ne hs, hjo])
          (by rw [length_append, length_singleton]; omega)
        exact ⟨owner', fun j hj => h1 j (by simp only [mem_append, mem_cons,
            not_mem_nil, or_false] at hj ⊢; tauto),
          fun j hj hn => h2 j hj (by simp only [mem_append, mem_cons,
            not_mem_nil, or_false] at hn ⊢; tauto)⟩

/-- **No slot of a key that stays is shared**, once the owners of spilled keys' slots are spilled.
-/
theorem coSpill_unshared {owner : ℕ → Option ℕ} {spilled : List ℕ}
    (hown : ∀ s k, owner s = some k → k < n ∧ slot k = s)
    (hplaced : ∀ k < n, k ∈ spilled ∨ owner (slot k) = some k) {i j : ℕ} (hi : i < n) (hj : j < n)
    (hstay : j ∉ spilled ++ coSpill slot (spilled.length + n) spilled owner) (heq : slot i = slot j) :
    i = j := by
  have hcard : (owners slot n owner).card ≤ n := by
    simpa [owners] using Finset.card_filter_le (Finset.range n) fun k => owner (slot k) = some k
  obtain ⟨owner', h1, h2⟩ := @coSpill_spec slot n (spilled.length + n) spilled [] owner hown
    (by simp) (fun k hk _ hp => (hplaced k hk).resolve_left hp) (by omega)
  have hjo := h2 j hj hstay
  by_cases hsp : i ∈ spilled ++ coSpill slot (spilled.length + n) spilled owner
  · rw [← heq, h1 i hsp] at hjo
    cases hjo
  · rw [← heq, h2 i hi hsp] at hjo
    exact Option.some.inj hjo

end CoSpill

end Displace
end Zilkworm.Lib
