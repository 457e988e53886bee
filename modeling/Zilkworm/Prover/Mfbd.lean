/-
# The host encoder's maps

`prover/stateless_validator/src/mfbd.rs`: `build_mphf` ports `MphfBuilder` to the host.  It
adds entries, solves for a seed and displacements and writes the region as the builder does,
but its `chd_solve` leaves the owner of a slot that a spilled key probes where it is, and
counts only the keys of overflowing buckets when it compares attempts.  Its two limits are
constants, parameters here; its loop over the displacements ends at every limit.

The two encoders write the same bytes exactly when they settle on the same seed and every
owner that the builder spills was in the sidecar before.
-/
import Zilkworm.Witness.MphfLimits

namespace Zilkworm.Prover

open List Lib Displace Witness

namespace Mfbd

/-! ## `chd_solve` and `build_mphf` -/

section Search

variable (keys : List UInt64) (seedTry maxD : ℕ)

/-- One bucket of an attempt. -/
def placeStep (p : Placement UInt64) (b : ℕ) : Placement UInt64 :=
  match bucketAt keys seedTry b with
  | [] => { p with disp := Function.update p.disp b 0 }
  | bucket => placeBucket (slotFor keys seedTry) 0 b bucket
    (firstSome (tryDisplacement keys seedTry p.owner bucket) (maxD + 1) 0) p

/-- All buckets of an attempt. -/
def placeAll : Placement UInt64 :=
  (bucketOrder keys seedTry).foldl (placeStep keys seedTry maxD) noPlacement

/-- An attempt with one seed: the keys of the buckets that overflow are spilled. -/
def attempt : Attempt :=
  let p := placeAll keys seedTry maxD
  ⟨seedTry, p.disp, p.slot, p.spilled⟩

end Search

/-- `chd_solve`. -/
def chdSolve (keys : List UInt64) (retries maxD : ℕ) : Except String Attempt :=
  if keys = [] then .ok ⟨0, fun _ => 0, fun _ => 0, []⟩
  else match trySeeds (fun seedTry => some (attempt keys seedTry maxD)) retries 0 none with
    | some (some a) => .ok a
    | _ => .error "MphfBuilder: CHD solve failed within retry budget"

/-- `build_mphf`. -/
def buildMphf (magic : ℕ) (entries : List (UInt64 × Bytes)) (retries maxD : ℕ) :
    Except String Bytes := do
  let b := entries.foldl (fun b e => b.add e.1 e.2) ({} : MphfBuilder)
  let keys := b.distinctKeys
  let a ← chdSolve keys retries maxD
  -- spilled keys join the sidecar
  let b := a.spilled.foldl (fun b i => b.toSidecar (keys.getD i 0)) b
  return (b.region keys a).bytes magic

/-- The entries of bodies under the short form of the keys they start with. -/
def entriesOf (keySize : ℕ) (shortenKey : Bytes → UInt64) (bodies : List Bytes) :
    List (UInt64 × Bytes) :=
  bodies.map fun body => (shortenKey (body.take keySize), body)

/-! ## The two searches -/

section Compare

variable {keys : List UInt64} {seedTry maxD : ℕ}

/-- The keys that the builder spills besides: owners of slots that spilled keys probe. -/
def victims (keys : List UInt64) (seedTry maxD : ℕ) : List ℕ :=
  let p := placeAll keys seedTry maxD
  coSpill p.slot (p.spilled.length + keys.length) p.spilled p.owner

/-- The builder's attempt. -/
def builderAttempt (keys : List UInt64) (seedTry maxD : ℕ) : Attempt :=
  { attempt keys seedTry maxD with
    spilled := (attempt keys seedTry maxD).spilled ++ victims keys seedTry maxD }

/-- A search of the builder that ends finds what the search of `build_mphf` finds. -/
theorem searchDisplacement_eq {owner : ℕ → Option ℕ} {bucket : List ℕ} {found : Option (UInt64 × List ℕ)}
    (h : searchDisplacement keys seedTry maxD owner bucket = some found) :
    firstSome (tryDisplacement keys seedTry owner bucket) (maxD + 1) 0 = found := by
  unfold searchDisplacement at h
  split at h
  · rename_i hfirst
    exact hfirst.trans (Option.some.inj h)
  · rename_i hfirst
    split_ifs at h
    exact hfirst.trans (Option.some.inj h)

/-- A bucket that the builder places or spills is placed or spilled alike by `build_mphf`. -/
theorem placeStep_eq {p q : Placement UInt64} {b : ℕ}
    (h : Witness.placeStep keys seedTry maxD p b = some q) :
    placeStep keys seedTry maxD p b = q := by
  unfold Witness.placeStep at h
  unfold placeStep
  cases hb : bucketAt keys seedTry b with
  | nil =>
    rw [hb] at h
    exact Option.some.inj h
  | cons k ks =>
    rw [hb] at h
    obtain ⟨found, hfound, rfl⟩ := Option.map_eq_some_iff.mp h
    dsimp only
    rw [searchDisplacement_eq hfound]

/-- Where the builder's attempt ends, it places as the encoder does. -/
theorem placeAll_eq {q : Placement UInt64} (h : Witness.placeAll keys seedTry maxD = some q) :
    placeAll keys seedTry maxD = q := by
  unfold Witness.placeAll at h
  unfold placeAll
  generalize bucketOrder keys seedTry = order at h ⊢
  generalize noPlacement = p at h ⊢
  induction order generalizing p with
  | nil => exact Option.some.inj h
  | cons b bs ih =>
    obtain ⟨r, hr, h⟩ := Option.bind_eq_some_iff.mp h
    rw [foldl_cons, placeStep_eq hr]
    exact ih r h

/-- An attempt of the builder that ends is the attempt of `build_mphf` with that seed. -/
theorem attempt_eq {a : Attempt} (h : Witness.attempt keys seedTry maxD = some a) :
    a = builderAttempt keys seedTry maxD := by
  obtain ⟨q, hq, rfl⟩ := Option.map_eq_some_iff.mp h
  rw [builderAttempt, attempt, victims, placeAll_eq hq]

/-- `s` is the first place where `f` is least below `n`. -/
structure FirstLeast (f : ℕ → ℕ) (n s : ℕ) : Prop where
  lt : s < n
  least : ∀ t < n, f s ≤ f t
  first : ∀ t < s, f s < f t

/-- There is one first place of the least value, so two searches for it agree. -/
theorem FirstLeast.unique {f : ℕ → ℕ} {n s t : ℕ} (hs : FirstLeast f n s) (ht : FirstLeast f n t) :
    s = t := by
  rcases Nat.lt_trichotomy s t with h | h | h
  · have := ht.first s h
    have := hs.least t ht.lt
    omega
  · exact h
  · have := hs.first t h
    have := ht.least s hs.lt
    omega

/-- **The loop over the seeds** settles on the first attempt that spills least. -/
theorem trySeeds_firstLeast {A : ℕ → Attempt} {fuel k : ℕ} {best : Option Attempt} (hpos : 0 < k + fuel)
    (hbest : (k = 0 ∧ best = none) ∨ ∃ s, best = some (A s) ∧
    FirstLeast (fun t => (A t).spilled.length) k s ∧
      0 < (A s).spilled.length) :
    ∃ s, FirstLeast (fun t => (A t).spilled.length) (k + fuel) s ∧
      trySeeds (fun t => some (A t)) fuel k best = some (some (A s)) := by
  induction fuel generalizing k best with
  | zero =>
    rcases hbest with ⟨rfl, -⟩ | ⟨s, rfl, hs, -⟩
    · omega
    · exact ⟨s, hs, rfl⟩
  | succ fuel ih =>
    have hsum : k + (fuel + 1) = k + 1 + fuel := by omega
    by_cases hnone : (A k).spilled = []
    · refine ⟨k, ⟨by omega, fun t _ => by simp [hnone], fun t ht => ?_⟩, by simp [trySeeds, hnone]⟩
      rcases hbest with ⟨rfl, -⟩ | ⟨s, -, hs, h0⟩
      · omega
      · have := hs.least t ht
        simp only [hnone, length_nil]
        omega
    · have hk : 0 < (A k).spilled.length := length_pos_iff.mpr hnone
      rcases hbest with ⟨rfl, rfl⟩ | ⟨s, rfl, hs, h0⟩
      · obtain ⟨s, h1, h2⟩ := @ih 1 (some (A 0)) (by omega) (.inr ⟨0, rfl, ⟨by omega, fun t ht => by
          obtain rfl : t = 0 := by omega
          exact le_rfl, fun t ht => by omega⟩, hk⟩)
        exact ⟨s, hsum ▸ h1, by simpa [trySeeds, hnone] using h2⟩
      · by_cases hlt : (A k).spilled.length < (A s).spilled.length
        · obtain ⟨s', h1, h2⟩ :=
            @ih (k + 1) (some (A k)) (by omega) (.inr ⟨k, rfl, ⟨by omega, fun t ht => by
            rcases Nat.lt_succ_iff_lt_or_eq.mp ht with ht | rfl
            · have := hs.least t ht
              omega
            · exact le_rfl, fun t ht => by
            have := hs.least t ht
            omega⟩, hk⟩)
          exact ⟨s', hsum ▸ h1, by simpa [trySeeds, hnone, hlt] using h2⟩
        · obtain ⟨s', h1, h2⟩ :=
            @ih (k + 1) (some (A s)) (by omega) (.inr ⟨s, rfl, ⟨by have := hs.lt; omega,
            fun t ht => by
              rcases Nat.lt_succ_iff_lt_or_eq.mp ht with ht | rfl
              · exact hs.least t ht
              · omega, hs.first⟩, h0⟩)
          exact ⟨s', hsum ▸ h1, by simpa [trySeeds, hnone, hlt] using h2⟩

end Compare

/-! ## The two regions -/

section Regions

variable {b : MphfBuilder} {keys : List UInt64} {added : List (UInt64 × Bytes)} {magic : ℕ}

/-- A region shows its seed. -/
theorem seed_at (r : Region) (magic : ℕ) (h : r.seedTry < 2 ^ 64) :
    u64At (r.bytes magic) 16 = r.seedTry := by
  have hh := (Region.sections (LiesAt.self (r.bytes magic))).header
  obtain ⟨hh, -⟩ := liesAt_append.mp hh
  obtain ⟨-, hseed⟩ := liesAt_append.mp hh
  exact (hseed.row (toLe_length 8) (i := 0) rfl).u64At_eq h

/-- The bytes of a region, whatever the attempt: they depend on the numbers of keys and of
collisions. -/
theorem region_length (h : b.Holds keys added) (a : Attempt) (magic : ℕ) :
    ((b.region keys a).bytes magic).length = mphfHeaderSize + align8 (8 * nBucketsFor keys.length) +
      align8 (4 * keys.length) + mphfCollisionSize * b.collisions.length +
      (8 + (added.map fun e => entrySize e.2.length).sum) := by
  have hdisp : (b.region keys a).disp.length = nBucketsFor keys.length := by
    show ((range (nBucketsFor keys.length)).map a.disp).length = _
    rw [length_map, length_range]
  have hslots : (b.region keys a).slots.length = keys.length := by
    rw [MphfBuilder.region_slots, length_map, length_range]
  have hcoll : (b.region keys a).collisions.length = b.collisions.length := by
    rw [MphfBuilder.region_collisions, length_insertionSort, length_zip, length_map,
      MphfBuilder.sidecarOffsets, entryOffsets_length, length_map, min_self]
  have hsum : ((b.region keys a).bodies.map fun body => entrySize body.length).sum =
      (added.map fun e => entrySize e.2.length).sum := by
    have := ((h.bodies_perm a).map fun body : Bytes => entrySize body.length).sum_nat
    rwa [map_map] at this
  have hpad : align8 (mphfCollisionSize * b.collisions.length) =
      mphfCollisionSize * b.collisions.length := by
    unfold align8 mphfCollisionSize
    omega
  rw [Region.bytes_length, Region.dataOffset, Region.collisionsOffset, Region.slotOffsetsOffset,
    Region.dataSize, hdisp, hslots, hcoll, hsum, hpad]

/-- With the same attempt, spilling more keys gives the same region exactly when these have no body.
-/
theorem bytes_eq_iff (h : b.Holds keys added) (a : Attempt) {o v : List UInt64} (ho : ∀ k ∈ o, k ∈ keys)
    (hv : ∀ k ∈ v, k ∈ keys ∧ k ∉ o) :
    (((o ++ v).foldl MphfBuilder.toSidecar b).region keys a).bytes magic =
      ((o.foldl MphfBuilder.toSidecar b).region keys a).bytes magic ↔ ∀ k ∈ v, b.body k = [] := by
  have hbody : ∀ k ∈ v, (o.foldl MphfBuilder.toSidecar b).body k = b.body k := fun k hk => by
    rw [MphfBuilder.foldl_toSidecar_body, if_neg (hv k hk).2]
  rw [foldl_append]
  constructor
  · intro heq
    by_contra hne
    push Not at hne
    obtain ⟨k, hk, hkb⟩ := hne
    have hlt := MphfBuilder.foldl_toSidecar_collisions_lt ⟨k, hk, (hbody k hk).trans_ne hkb⟩
    have hlen := congrArg List.length heq
    rw [region_length (h.spill ho), region_length ((h.spill ho).spill fun k hk => (hv k hk).1)] at hlen
    unfold mphfCollisionSize at hlen
    omega
  · intro hempty
    rw [MphfBuilder.foldl_toSidecar_of_empty fun k hk => (hbody k hk).trans (hempty k hk)]

end Regions

/-! ## When the encoders agree -/

section Agree

variable {keySize magic : ℕ} {shortenKey : Bytes → UInt64} {bodies : List Bytes} {limits : SearchLimits}

/-- Both searches settle on one seed, and each key that only the builder spills is in the sidecar
already, its short key being that of several entries. -/
def SameChoice (keySize : ℕ) (shortenKey : Bytes → UInt64) (bodies : List Bytes)
    (limits : SearchLimits) : Prop :=
  let b := MphfBuilder.ofBodies keySize shortenKey bodies
  let keys := b.distinctKeys
  let overflow := fun s => (attempt keys s limits.maxD).spilled.length
  ∃ s, FirstLeast overflow limits.retries s ∧
    FirstLeast (fun t => overflow t + (victims keys t limits.maxD).length) limits.retries s ∧
    ∀ v ∈ victims keys s limits.maxD, b.body (keys.getD v 0) = []

/-- `build_mphf` writes the region of the attempt its search settles on, with the spilled keys in
the sidecar. -/
theorem buildMphf_eq (magic : ℕ) (retries maxD : ℕ) :
    buildMphf magic (entriesOf keySize shortenKey bodies) retries maxD =
      let b := MphfBuilder.ofBodies keySize shortenKey bodies
      (chdSolve b.distinctKeys retries maxD).map fun a =>
        (((a.spilled.map fun i => b.distinctKeys.getD i 0).foldl MphfBuilder.toSidecar b).region
          b.distinctKeys a).bytes magic := by
  have hb : (entriesOf keySize shortenKey bodies).foldl (fun b e => b.add e.1 e.2) ({} : MphfBuilder) =
      MphfBuilder.ofBodies keySize shortenKey bodies := by
    rw [entriesOf, foldl_map]
    rfl
  simp only [buildMphf, hb, foldl_map]
  cases chdSolve (MphfBuilder.ofBodies keySize shortenKey bodies).distinctKeys retries maxD <;> rfl

/-- `finalize` writes the region of the attempt its search settles on, in the same way. -/
theorem finalize_eq (b : MphfBuilder) {a : Attempt}
    (h : Witness.chdSolve b.distinctKeys limits = some (some a)) :
    b.finalize magic limits =
      some ((((a.spilled.map fun i => b.distinctKeys.getD i 0).foldl MphfBuilder.toSidecar b).region
        b.distinctKeys a).bytes magic) := by
  rw [MphfBuilder.finalize]
  simp only [h, Option.map_some, foldl_map]

/-- The encoder's search ends with the first attempt that overflows least. -/
theorem chdSolve_firstLeast {keys : List UInt64} {retries maxD : ℕ} (hn : keys ≠ []) (hr : 0 < retries) :
    ∃ s, FirstLeast (fun t => (attempt keys t maxD).spilled.length) retries s ∧
      chdSolve keys retries maxD = .ok (attempt keys s maxD) := by
  obtain ⟨s, hs, heq⟩ :=
    @trySeeds_firstLeast (fun t => attempt keys t maxD) retries 0 none (by omega) (.inl ⟨rfl, rfl⟩)
  rw [Nat.zero_add] at hs
  exact ⟨s, hs, by rw [chdSolve, if_neg hn, heq]⟩

/-- The builder's search below the largest limit, with the owners counted. -/
theorem builder_firstLeast {keys : List UInt64} (hn : keys ≠ []) (hd : limits.maxD ≠ 2 ^ 32 - 1) :
    ∃ s, FirstLeast
      (fun t => (attempt keys t limits.maxD).spilled.length + (victims keys t limits.maxD).length)
        limits.retries s ∧
      Witness.chdSolve keys limits = some (some (builderAttempt keys s limits.maxD)) := by
  have hatt : (fun t => Witness.attempt keys t limits.maxD) =
      fun t => some (builderAttempt keys t limits.maxD) :=
    funext fun t => by
      obtain ⟨a, ha⟩ := @attempt_isSome keys t limits.maxD hd
      rw [ha, attempt_eq ha]
  obtain ⟨s, hs, heq⟩ :=
    @trySeeds_firstLeast (fun t => builderAttempt keys t limits.maxD) limits.retries 0 none
    (by have := limits.retries_pos; omega) (.inl ⟨rfl, rfl⟩)
  rw [Nat.zero_add] at hs
  have hlen : (fun t => (builderAttempt keys t limits.maxD).spilled.length) =
      fun t => (attempt keys t limits.maxD).spilled.length + (victims keys t limits.maxD).length :=
    funext fun t => length_append
  exact ⟨s, hlen ▸ hs, by rw [Witness.chdSolve, if_neg hn, hatt, heq]⟩

/-- A key that joins the spilled ones is a key, and was not spilled before. -/
theorem spilled_spec {keys : List UInt64} {s maxD : ℕ} (hd : maxD ≠ 2 ^ 32 - 1) :
    (∀ i ∈ (attempt keys s maxD).spilled, i < keys.length) ∧
    ∀ v ∈ victims keys s maxD, v < keys.length ∧ v ∉ (attempt keys s maxD).spilled := by
  obtain ⟨q, hq⟩ := foldlM_isSome (@placeStep_isSome keys s maxD hd) (bucketOrder keys s) noPlacement
  have hsound := placeAll_sound (show Witness.placeAll keys s maxD = some q from hq)
  rw [← placeAll_eq (show Witness.placeAll keys s maxD = some q from hq)] at hsound
  exact ⟨fun i hi => (hsound.spilled i hi).1, fun v hv =>
    coSpill_owners (P := fun k => k < keys.length ∧ k ∉ (attempt keys s maxD).spilled)
      (fun s k hk => ⟨(hsound.owner s k hk).1, hsound.kept s k hk⟩) hv⟩

theorem getD_inj {keys : List UInt64} (hn : keys.Nodup) {i j : ℕ} (hi : i < keys.length)
    (hj : j < keys.length) (h : keys.getD i 0 = keys.getD j 0) : i = j := by
  rw [getD_eq_getElem?_getD, getD_eq_getElem?_getD, getElem?_eq_getElem hi,
    getElem?_eq_getElem hj, Option.getD_some, Option.getD_some] at h
  exact (Nodup.getElem_inj_iff hn).mp h

/-- With one seed, the two encoders write the same region exactly when the keys that only the
builder spills have no body of their own. -/
theorem sameSeed_iff {b : MphfBuilder} {keys : List UInt64} {added : List (UInt64 × Bytes)}
    (h : b.Holds keys added) {s maxD : ℕ} (hd : maxD ≠ 2 ^ 32 - 1) :
    (((((builderAttempt keys s maxD).spilled.map fun i => keys.getD i 0).foldl
      MphfBuilder.toSidecar b).region
      keys (builderAttempt keys s maxD)).bytes magic =
    ((((attempt keys s maxD).spilled.map fun i => keys.getD i 0).foldl MphfBuilder.toSidecar b).region
      keys (attempt keys s maxD)).bytes magic) ↔
    ∀ v ∈ victims keys s maxD, b.body (keys.getD v 0) = [] := by
  obtain ⟨hlt, hvict⟩ := @spilled_spec keys s maxD hd
  have hkeys : ∀ k ∈ (attempt keys s maxD).spilled.map fun i => keys.getD i 0, k ∈ keys := fun k hk => by
    obtain ⟨i, hi, rfl⟩ := mem_map.mp hk
    exact MphfBuilder.getD_mem (hlt i hi)
  have hv : ∀ k ∈ (victims keys s maxD).map fun i => keys.getD i 0,
      k ∈ keys ∧ k ∉ (attempt keys s maxD).spilled.map fun i => keys.getD i 0 := fun k hk => by
    obtain ⟨i, hi, rfl⟩ := mem_map.mp hk
    refine ⟨MphfBuilder.getD_mem (hvict i hi).1, fun hmem => ?_⟩
    obtain ⟨j, hj, heq⟩ := mem_map.mp hmem
    exact (hvict i hi).2 (getD_inj h.nodup (hlt j hj) (hvict i hi).1 heq ▸ hj)
  have hiff := @bytes_eq_iff b keys added magic h (attempt keys s maxD) _ _ hkeys hv
  rw [← map_append] at hiff
  exact hiff.trans ⟨fun hb v hmem => hb _ (mem_map.mpr ⟨v, hmem, rfl⟩), fun hb k hk => by
    obtain ⟨v, hmem, rfl⟩ := mem_map.mp hk
    exact hb v hmem⟩

/-- The largest limit, when the first seed's buckets fit: both searches settle on that seed. -/
theorem fit_firstSeed {keys : List UInt64} (hn : keys ≠ []) (hd : limits.maxD = 2 ^ 32 - 1)
    (hfit : BucketsFit keys (bucketOrder keys 0) []) :
    (attempt keys 0 limits.maxD).spilled = [] ∧ victims keys 0 limits.maxD = [] ∧
    Witness.chdSolve keys limits = some (some (attempt keys 0 limits.maxD)) := by
  obtain ⟨q, hq⟩ := placeSteps_of_fit noPlacement_free hfit
  have hsp : q.spilled = [] := (fit_of_placeSteps noPlacement_free hq).2
  have hplace : placeAll keys 0 limits.maxD = q :=
    hd ▸ placeAll_eq (show Witness.placeAll keys 0 _ = some q from hq)
  have hnone : (attempt keys 0 limits.maxD).spilled = [] := by rw [attempt, hplace]; exact hsp
  have hvict : victims keys 0 limits.maxD = [] := by
    rw [victims, hplace, hsp]
    cases keys <;> rfl
  have hatt : Witness.attempt keys 0 limits.maxD = some (builderAttempt keys 0 limits.maxD) := by
    obtain ⟨a, ha⟩ : ∃ a, Witness.attempt keys 0 limits.maxD = some a :=
      ⟨_, by rw [Witness.attempt, Witness.placeAll, hd, hq]; rfl⟩
    rw [ha, attempt_eq ha]
  have hsame : builderAttempt keys 0 limits.maxD = attempt keys 0 limits.maxD := by
    rw [builderAttempt, hvict, append_nil]
  obtain ⟨fuel, hfuel⟩ : ∃ fuel, limits.retries = fuel + 1 :=
    ⟨limits.retries - 1, by have := limits.retries_pos; omega⟩
  refine ⟨hnone, hvict, ?_⟩
  rw [Witness.chdSolve, if_neg hn, hfuel, trySeeds, hatt, hsame]
  simp [hnone]

/-- An attempt that spills nothing is the first of the least. -/
theorem firstLeast_zero {f : ℕ → ℕ} {n : ℕ} (hn : 0 < n) (h : f 0 = 0) : FirstLeast f n 0 :=
  ⟨hn, fun t _ => by omega, fun t ht => by omega⟩

end Agree

/-- **The host encoder against the builder.**  Both keep sizes and offsets in 32 bits, so the
regions are taken to be below `2^32` bytes.  For bodies with distinct keys and every pair of limits,
`build_mphf` writes, byte for byte, the region of `MphfBuilder`, over which `find` reaches every
entry, exactly when the builder's search ends, both searches settle on the same seed, and the keys
that only the builder spills are in the sidecar already. -/
theorem buildMphf_agrees (keySize magic : ℕ) (shortenKey : Bytes → UInt64) (bodies : List Bytes)
    (limits : SearchLimits) (hadd : MphfBuilder.Addable keySize bodies) (hmagic : magic < 2 ^ 32)
    (hsize : ∀ region, (MphfBuilder.ofBodies keySize shortenKey bodies).finalize magic limits =
    some region ∨
      buildMphf magic (entriesOf keySize shortenKey bodies) limits.retries limits.maxD = .ok region →
        region.length < 2 ^ 32) :
    (∃ blob, (MphfBuilder.ofBodies keySize shortenKey bodies).finalize magic limits = some blob ∧
      buildMphf magic (entriesOf keySize shortenKey bodies) limits.retries limits.maxD = .ok blob ∧
      MphfBuilder.RoundTrip keySize shortenKey magic bodies blob 0 blob.length) ↔
    LimitEnds keySize shortenKey bodies limits ∧ SameChoice keySize shortenKey bodies limits := by
  have htrip : ∀ blob,
      (MphfBuilder.ofBodies keySize shortenKey bodies).finalize magic limits = some blob →
      MphfBuilder.RoundTrip keySize shortenKey magic bodies blob 0 blob.length := fun blob h =>
    MphfBuilder.roundTrip_of_finalize hadd hmagic h (hsize blob (.inl h)) (LiesAt.self blob) rfl
  clear hsize
  have hholds := @MphfBuilder.ofBodies_holds keySize shortenKey bodies hadd.nil_notMem
  have hpos := limits.retries_pos
  rw [buildMphf_eq]
  unfold LimitEnds SameChoice
  generalize MphfBuilder.ofBodies keySize shortenKey bodies = b at htrip hholds ⊢
  dsimp only
  by_cases hn : b.distinctKeys = []
  · -- no keys: both write the empty map
    have hcpp : Witness.chdSolve b.distinctKeys limits =
        some (some ⟨0, fun _ => 0, fun _ => 0, []⟩) := by
      rw [Witness.chdSolve, if_pos hn]
    have hrust : chdSolve b.distinctKeys limits.retries limits.maxD =
        .ok ⟨0, fun _ => 0, fun _ => 0, []⟩ := by
      rw [chdSolve, if_pos hn]
    refine ⟨fun _ => ⟨?_, 0, ?_, ?_, ?_⟩, fun _ => ⟨_, finalize_eq b hcpp, by rw [hrust]; rfl,
      htrip _ (finalize_eq b hcpp)⟩⟩
    · by_cases hd : limits.maxD = 2 ^ 32 - 1
      · exact .inr ((chdSolve_max hd).mp ⟨_, hcpp⟩)
      · exact .inl hd
    · exact firstLeast_zero hpos (by rw [hn]; rfl)
    · exact firstLeast_zero hpos (by rw [hn]; rfl)
    · rw [hn]
      exact fun _ h => absurd h not_mem_nil
  obtain ⟨sR, hR, hrust⟩ := @chdSolve_firstLeast b.distinctKeys limits.retries limits.maxD hn hpos
  by_cases hd : limits.maxD = 2 ^ 32 - 1
  · -- the largest limit: the builder ends only without a spill
    have hboth : BucketsFit b.distinctKeys (bucketOrder b.distinctKeys 0) [] → _ := fit_firstSeed hn hd
    constructor
    · rintro ⟨blob, hblob, -⟩
      obtain ⟨a, ha, -⟩ := Option.map_eq_some_iff.mp hblob
      have hfit := (chdSolve_max hd).mp ⟨a, ha⟩
      obtain ⟨h1, h2, -⟩ := hboth hfit
      exact ⟨.inr hfit, 0, firstLeast_zero hpos (by rw [h1]; rfl),
        firstLeast_zero hpos (by rw [h1, h2]; rfl),
        by rw [h2]; exact fun _ h => absurd h not_mem_nil⟩
    · rintro ⟨hends, -⟩
      have hfit := hends.resolve_left fun hne => hne hd
      obtain ⟨h1, h2, h3⟩ := hboth hfit
      obtain rfl := hR.unique (firstLeast_zero hpos (by rw [h1]; rfl))
      exact ⟨_, finalize_eq b h3, by rw [hrust]; rfl, htrip _ (finalize_eq b h3)⟩
  · obtain ⟨sC, hC, hcpp⟩ := builder_firstLeast hn hd
    have hfin := @finalize_eq magic limits b _ hcpp
    have hsmall : limits.retries < 2 ^ 64 := limits.retries_lt.trans (by decide)
    constructor
    · rintro ⟨blob, hblob, hbuild, -⟩
      rw [hrust] at hbuild
      have heq := Option.some.inj (hfin.symm.trans hblob) |>.trans (Except.ok.inj hbuild).symm
      -- the header shows the seed
      obtain rfl : sC = sR := by
        have := congrArg (u64At · 16) heq
        rw [seed_at _ magic (hC.lt.trans hsmall), seed_at _ magic (hR.lt.trans hsmall)] at this
        exact this
      exact ⟨.inl hd, sC, hR, hC, (sameSeed_iff hholds hd).mp heq⟩
    · rintro ⟨-, s, hsR, hsC, hempty⟩
      obtain rfl := hR.unique hsR
      obtain rfl := hC.unique hsC
      refine ⟨_, hfin, ?_, htrip _ hfin⟩
      rw [hrust]
      exact congrArg Except.ok ((sameSeed_iff hholds hd).mpr hempty).symm

/-- Three entries, two of one short key: both encoders write the same region, under the default
limits. -/
theorem buildMphf_agrees_shared :
    ∃ blob, (MphfBuilder.ofBodies 32 Twins.shortenKey Twins.shared).finalize 0x4348504D {} = some blob ∧
      buildMphf 0x4348504D (entriesOf 32 Twins.shortenKey Twins.shared) 32 1048576 = .ok blob ∧
      MphfBuilder.RoundTrip 32 Twins.shortenKey 0x4348504D Twins.shared blob 0 blob.length := by
  obtain ⟨hbuilder, hencoder⟩ :
      (∀ region ∈ (MphfBuilder.ofBodies 32 Twins.shortenKey Twins.shared).finalize 0x4348504D {},
        region.length < 2 ^ 32) ∧
      ∀ region ∈ (buildMphf 0x4348504D (entriesOf 32 Twins.shortenKey Twins.shared) 32 1048576).toOption,
        region.length < 2 ^ 32 := by
    decide +kernel
  refine (buildMphf_agrees 32 0x4348504D Twins.shortenKey Twins.shared {} Twins.shared_addable
    (by decide) ?_).mpr
    ⟨.inl (by decide), 0, firstLeast_zero (by decide) (by decide +kernel),
      firstLeast_zero (by decide) (by decide +kernel), by decide +kernel⟩
  rintro region (h | h)
  · exact hbuilder region h
  · refine hencoder region ?_
    rw [show buildMphf _ _ 32 1048576 = .ok region from h]
    rfl

namespace Overflow

/-- Five short keys, the last alone in a bucket that overflows with one seed and displacements zero
and one; it probes the slot of the first. -/
def keys : List UInt64 := [29, 65, 88, 89, 99]

/-- Bodies that start with the keys. -/
def bodies : List Bytes := keys.map fun k => toLe 8 k.toNat ++ replicate 24 0

/-- One seed, two displacements. -/
def limits : SearchLimits := ⟨1, 1⟩

/-- The encoder's region. -/
def blob : Bytes := (buildMphf 0x4348504D
    (entriesOf 32 Twins.shortenKey bodies) limits.retries limits.maxD).toOption.getD []

end Overflow

/-- **An entry of the encoder's map that no lookup reaches.**  The bytes are not the builder's, and
`find` of the last key returns nothing. -/
theorem buildMphf_unreached : MphfBuilder.Addable 32 Overflow.bodies ∧
    buildMphf 0x4348504D (entriesOf 32 Twins.shortenKey Overflow.bodies) Overflow.limits.retries
      Overflow.limits.maxD = .ok Overflow.blob ∧
    (MphfBuilder.ofBodies 32 Twins.shortenKey Overflow.bodies).finalize 0x4348504D Overflow.limits ≠
      some Overflow.blob ∧
    validateMphf 32 0 Overflow.blob 0 Overflow.blob.length 0x4348504D = .ok () ∧
    (MphfMap.reset Overflow.blob 0).find Overflow.blob 0 99 (toLe 8 99 ++ replicate 24 0) = none := by
  refine ⟨⟨by decide, by decide, by decide⟩, ?_⟩
  decide +kernel

end Mfbd

end Zilkworm.Prover
