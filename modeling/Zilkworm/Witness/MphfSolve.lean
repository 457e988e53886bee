/-
# What `chd_solve` finds

An attempt gives every short key the slot that a lookup will compute for it, and no slot
of a key that stays in the map is shared, however many buckets overflowed
(`attempt_unshared`): the placement is sound bucket by bucket, and the owners of spilled
keys' slots are spilled.  Below the largest displacement limit every loop ends, and some
attempt is the result (`chdSolve_isSome`).
-/
import Zilkworm.Witness.MphfBuilder
import Zilkworm.Witness.MphfLayout

namespace Zilkworm.Witness

open List Lib Displace

variable {b fuel : ℕ} {p : Placement UInt64} {a : Attempt}

section Attempt

variable {keys : List UInt64} {seedTry maxD : ℕ}

theorem bucketOf_lt (i : ℕ) : bucketOf keys seedTry i < nBucketsFor keys.length :=
  fastModU32_lt _ (by unfold nBucketsFor; omega)

theorem mem_bucketAt {i : ℕ} :
    i ∈ bucketAt keys seedTry b ↔ i < keys.length ∧ bucketOf keys seedTry i = b := by
  simp [bucketAt]

theorem bucketAt_nodup (b : ℕ) : (bucketAt keys seedTry b).Nodup := nodup_range.filter _

theorem searchDisplacement_found {owner : ℕ → Option ℕ} {bucket slots : List ℕ} {d : UInt64}
    (h : searchDisplacement keys seedTry maxD owner bucket = some (some (d, slots))) :
    tryPositions owner (slotFor keys seedTry d) bucket [] = some slots := by
  unfold searchDisplacement at h
  split at h
  · rename_i found hfirst
    cases h
    obtain ⟨e, -, -, he, -⟩ := firstSome_eq_some hfirst
    obtain ⟨s, hs, heq⟩ := Option.map_eq_some_iff.mp he
    obtain ⟨rfl, rfl⟩ := Prod.mk.inj heq
    exact hs
  · split_ifs at h
    cases h

/-- One bucket of an attempt leaves the placement sound. -/
theorem placeStep_sound {p' : Placement UInt64} {done : Set ℕ}
    (hp : p.Sound (slotFor keys seedTry) (bucketOf keys seedTry) keys.length done) (hb : b ∉ done)
    (h : placeStep keys seedTry maxD p b = some p') :
    p'.Sound (slotFor keys seedTry) (bucketOf keys seedTry) keys.length (insert b done) := by
  unfold placeStep at h
  split at h
  · rename_i hempty
    cases h
    have hnone : ∀ k < keys.length, bucketOf keys seedTry k ≠ b := fun k hk heq => by
      have := mem_bucketAt.mpr ⟨hk, heq⟩
      rw [hempty] at this
      cases this
    refine ⟨fun k hk hd => ?_, fun k hk hd => ?_, fun s k hs => ?_, fun k hk => ?_, hp.kept⟩
    · have hd := hd.resolve_left (hnone k hk)
      have hdisp : Function.update p.disp b 0 (bucketOf keys seedTry k) =
          p.disp (bucketOf keys seedTry k) :=
        Function.update_of_ne (hnone k hk) _ _
      exact (hp.slot k hk hd).trans (congrArg (slotFor keys seedTry · k) hdisp.symm)
    · exact hp.placed k hk (hd.resolve_left (hnone k hk))
    · obtain ⟨h1, h2, h3⟩ := hp.owner s k hs
      exact ⟨h1, .inr h2, h3⟩
    · exact ⟨(hp.spilled k hk).1, .inr (hp.spilled k hk).2⟩
  · obtain ⟨found, hfound, rfl⟩ := Option.map_eq_some_iff.mp h
    refine hp.placeBucket hb (fun k => mem_bucketAt) (bucketAt_nodup b) 0 fun d slots heq => ?_
    subst heq
    exact searchDisplacement_found hfound

/-- The buckets of a list, none done before, leave the placement sound. -/
theorem placeSteps_sound {l : List ℕ} {p' : Placement UInt64} {done : Set ℕ}
    (hp : p.Sound (slotFor keys seedTry) (bucketOf keys seedTry) keys.length done) (hl : l.Nodup)
    (hdone : ∀ b ∈ l, b ∉ done) (h : l.foldlM (placeStep keys seedTry maxD) p = some p') :
    p'.Sound (slotFor keys seedTry) (bucketOf keys seedTry) keys.length (done ∪ {b | b ∈ l}) := by
  induction l generalizing p done with
  | nil =>
    cases h
    simpa using hp
  | cons b l ih =>
    rw [foldlM_cons] at h
    obtain ⟨q, hq, h⟩ := Option.bind_eq_some_iff.mp h
    obtain ⟨hb, hl⟩ := nodup_cons.mp hl
    have hstep := placeStep_sound hp (hdone b mem_cons_self) hq
    have := ih hstep hl (fun x hx hmem => by
      rcases hmem with rfl | hmem
      · exact hb hx
      · exact hdone x (mem_cons_of_mem b hx) hmem) h
    convert this using 1
    ext x
    simp only [Set.mem_union, Set.mem_ofPred_eq, mem_cons, Set.mem_insert_iff]
    tauto

theorem mem_bucketOrder : b ∈ bucketOrder keys seedTry ↔ b < nBucketsFor keys.length := by
  rw [bucketOrder, (perm_insertionSort _ _).mem_iff, mem_range]

theorem bucketOrder_nodup : (bucketOrder keys seedTry).Nodup :=
  (perm_insertionSort _ _).nodup_iff.mpr nodup_range

/-- **The placement of all buckets**: every key has the slot of its bucket's displacement, and is
spilled or owns it. -/
theorem placeAll_sound (h : placeAll keys seedTry maxD = some p) :
    p.Sound (slotFor keys seedTry) (bucketOf keys seedTry) keys.length Set.univ := by
  have hnone : noPlacement.Sound (slotFor keys seedTry) (bucketOf keys seedTry) keys.length ∅ :=
    ⟨fun _ _ hk => hk.elim, fun _ _ hk => hk.elim, nofun, nofun, nofun⟩
  have hall := placeSteps_sound hnone bucketOrder_nodup (fun _ _ h => h) h
  have hin : ∀ k, bucketOf keys seedTry k ∈ (∅ ∪ {b | b ∈ bucketOrder keys seedTry} : Set ℕ) := fun k =>
    .inr (mem_bucketOrder.mpr (bucketOf_lt k))
  exact ⟨fun k hk _ => hall.slot k hk (hin k), fun k hk _ => hall.placed k hk (hin k),
    fun s k hs => ⟨(hall.owner s k hs).1, trivial, (hall.owner s k hs).2.2⟩,
    fun k hk => ⟨(hall.spilled k hk).1, trivial⟩, hall.kept⟩

/-- **What an attempt gives a lookup**: the slot of each key is the one its bucket's factor sends it
to, and a key that is not spilled shares its slot with no key. -/
structure Attempt.Solves (keys : List UInt64) (a : Attempt) : Prop where
  slot : ∀ i < keys.length, a.slot i = slotFor keys a.seedTry (a.disp (bucketOf keys a.seedTry i)) i
  unshared : ∀ i < keys.length, ∀ j < keys.length, j ∉ a.spilled → a.slot i = a.slot j → i = j
  spilled : ∀ i ∈ a.spilled, i < keys.length

theorem Attempt.Solves.slot_lt (h : a.Solves keys) {i : ℕ} (hi : i < keys.length) :
    a.slot i < keys.length := by
  rw [h.slot i hi]
  exact fastModU32_lt _ (by omega)

/-- The keys that join the spilled ones are owners. -/
theorem coSpill_owners {P : ℕ → Prop} {slot : ℕ → ℕ} {pending : List ℕ} {owner : ℕ → Option ℕ}
    (hown : ∀ s k, owner s = some k → P k) {k : ℕ} (hk : k ∈ coSpill slot fuel pending owner) :
    P k := by
  induction fuel generalizing pending owner with
  | zero => cases hk
  | succ fuel ih =>
    cases pending with
    | nil => cases hk
    | cons p ps =>
      unfold coSpill at hk
      cases ho : owner (slot p) with
      | none => rw [ho] at hk; exact ih hown hk
      | some o =>
        rw [ho] at hk
        rcases mem_cons.mp hk with rfl | hk
        · exact hown _ _ ho
        · refine ih (fun s k hs => ?_) hk
          by_cases heq : s = slot p
          · rw [heq, Function.update_self] at hs; cases hs
          · rw [Function.update_of_ne heq] at hs; exact hown s k hs

theorem attempt_solves (h : attempt keys seedTry maxD = some a) :
    a.Solves keys ∧ a.seedTry = seedTry := by
  obtain ⟨p, hp, rfl⟩ := Option.map_eq_some_iff.mp h
  have hs := placeAll_sound hp
  have hown : ∀ s k, p.owner s = some k → k < keys.length ∧ p.slot k = s := fun s k hk =>
    ⟨(hs.owner s k hk).1, (hs.owner s k hk).2.2⟩
  refine ⟨⟨fun i hi => hs.slot i hi trivial, fun i hi j hj hstay heq => ?_, fun i hi => ?_⟩, rfl⟩
  · exact coSpill_unshared hown (fun k hk => hs.placed k hk trivial) hi hj hstay heq
  · rcases mem_append.mp hi with hi | hi
    · exact (hs.spilled i hi).1
    · exact coSpill_owners (fun s k hk => (hown s k hk).1) hi

end Attempt

/-! ## The search ends -/

section Ends

variable {keys : List UInt64}

theorem placeStep_isSome {seedTry maxD : ℕ} (hd : maxD ≠ 2 ^ 32 - 1) (p : Placement UInt64) (b : ℕ) :
    ∃ p', placeStep keys seedTry maxD p b = some p' := by
  unfold placeStep
  split
  · exact ⟨_, rfl⟩
  · unfold searchDisplacement
    split
    · exact ⟨_, rfl⟩
    · rw [if_neg hd]
      exact ⟨_, rfl⟩

theorem foldlM_isSome {α β : Type} {f : β → α → Option β} (hf : ∀ b a, ∃ b', f b a = some b')
    (l : List α) (b : β) : ∃ b', l.foldlM f b = some b' := by
  induction l generalizing b with
  | nil => exact ⟨b, rfl⟩
  | cons a l ih =>
    obtain ⟨b', hb'⟩ := hf b a
    obtain ⟨b'', hb''⟩ := ih b'
    exact ⟨b'', by rw [foldlM_cons, hb']; exact hb''⟩

theorem attempt_isSome {seedTry maxD : ℕ} (hd : maxD ≠ 2 ^ 32 - 1) :
    ∃ a, attempt keys seedTry maxD = some a := by
  obtain ⟨p, hp⟩ := foldlM_isSome (@placeStep_isSome keys seedTry maxD hd)
    (bucketOrder keys seedTry) noPlacement
  exact ⟨_, by rw [attempt, placeAll, hp]; rfl⟩

/-- The result of the loop over the seeds is one of its attempts, or what it started from. -/
theorem trySeeds_eq_some {f : ℕ → Option Attempt} {seedTry : ℕ} {best : Option Attempt}
    (h : trySeeds f fuel seedTry best = some (some a)) :
    best = some a ∨ ∃ s, s < seedTry + fuel ∧ f s = some a := by
  induction fuel generalizing seedTry best with
  | zero =>
    cases h
    exact .inl rfl
  | succ fuel ih =>
    unfold trySeeds at h
    obtain ⟨t, ht, h⟩ := Option.bind_eq_some_iff.mp h
    split_ifs at h with hnone
    · cases h
      exact .inr ⟨seedTry, by omega, ht⟩
    · rcases ih h with hbest | ⟨s, hs, hfs⟩
      · split at hbest
        · cases hbest
          exact .inr ⟨seedTry, by omega, ht⟩
        · split_ifs at hbest
          · cases hbest
            exact .inr ⟨seedTry, by omega, ht⟩
          · exact .inl hbest
      · exact .inr ⟨s, by omega, hfs⟩

/-- With every attempt ending, and one made or at hand, there is a result. -/
theorem trySeeds_isSome {f : ℕ → Option Attempt} (hf : ∀ s, ∃ a, f s = some a) {seedTry : ℕ}
    {best : Option Attempt} (h : best.isSome ∨ 0 < fuel) :
    ∃ a, trySeeds f fuel seedTry best = some (some a) := by
  induction fuel generalizing seedTry best with
  | zero =>
    obtain ⟨a, ha⟩ := Option.isSome_iff_exists.mp (h.resolve_right (by omega))
    exact ⟨a, by rw [ha]; rfl⟩
  | succ fuel ih =>
    obtain ⟨t, ht⟩ := hf seedTry
    unfold trySeeds
    rw [ht]
    by_cases hnone : t.spilled = []
    · exact ⟨t, by simp [hnone]⟩
    · cases best with
      | none =>
        obtain ⟨a, ha⟩ := @ih (seedTry + 1) (some t) (.inl rfl)
        exact ⟨a, by simpa [hnone] using ha⟩
      | some b =>
        obtain ⟨a, ha⟩ := @ih (seedTry + 1)
          (some (if t.spilled.length < b.spilled.length then t else b)) (.inl rfl)
        exact ⟨a, by simpa [hnone] using ha⟩

theorem SearchLimits.retries_pos (l : SearchLimits) : 0 < l.retries := by
  unfold retries
  split_ifs with h
  · exact Nat.pos_of_ne_zero fun h0 => h (UInt32.toNat_inj.mp h0)
  · decide

theorem SearchLimits.retries_lt (l : SearchLimits) : l.retries < 2 ^ 32 := UInt32.toNat_lt _

/-- Any solution is that of an attempt. -/
theorem chdSolve_solves {limits : SearchLimits} (h : chdSolve keys limits = some (some a)) :
    a.Solves keys ∧ a.seedTry < 2 ^ 32 := by
  unfold chdSolve at h
  split_ifs at h with hnil
  · cases h
    subst hnil
    exact ⟨⟨nofun, nofun, nofun⟩, by decide⟩
  · rcases trySeeds_eq_some h with h | ⟨s, hs, ha⟩
    · cases h
    · obtain ⟨h1, h2⟩ := attempt_solves ha
      have := limits.retries_lt
      exact ⟨h1, by omega⟩

/-- **The search ends with a solution** below the largest displacement limit. -/
theorem chdSolve_isSome {limits : SearchLimits} (hd : limits.maxD ≠ 2 ^ 32 - 1) :
    ∃ a, chdSolve keys limits = some (some a) := by
  unfold chdSolve
  split_ifs
  · exact ⟨_, rfl⟩
  · exact trySeeds_isSome (fun s => attempt_isSome hd) (.inr limits.retries_pos)

end Ends

end Zilkworm.Witness
