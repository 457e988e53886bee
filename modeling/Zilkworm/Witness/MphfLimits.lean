/-
# The search limits of the builder

Below the largest displacement limit `finalize` always ends.  With the limit `2^32 - 1` the
32-bit counter of the displacement loop cannot pass it, and a bucket that no displacement
places keeps the loop going for ever: the search ends exactly when, with the first seed,
every bucket in turn is placed (`BucketsFit`).
-/
import Zilkworm.Witness.MphfRoundTrip
import Zilkworm.Witness.MphfTwins

namespace Zilkworm.Witness

open List Lib Displace

variable {d : ℕ} {p : Placement UInt64}

section Fit

variable (keys : List UInt64)

/-- Displacement `d` sends the bucket's keys to distinct slots that are not taken. -/
def Sends (taken bucket : List ℕ) (d : ℕ) : Prop :=
  (bucket.map (slotFor keys 0 (dFactorOf 0 d))).Nodup ∧
    ∀ i ∈ bucket, slotFor keys 0 (dFactorOf 0 d) i ∉ taken

/-- Each bucket in turn is sent to free slots by a 32-bit displacement, and takes those of the
smallest one. -/
def BucketsFit : (order taken : List ℕ) → Prop
  | [], _ => True
  | b :: bs, taken => ∃ d < 2 ^ 32, Sends keys taken (bucketAt keys 0 b) d ∧
    (∀ e < d, ¬ Sends keys taken (bucketAt keys 0 b) e) ∧
    BucketsFit bs (taken ++ (bucketAt keys 0 b).map (slotFor keys 0 (dFactorOf 0 d)))

variable {keys} {owner : ℕ → Option ℕ} {taken bucket : List ℕ}

theorem tryDisplacement_of_sends (ho : ∀ s, owner s = none ↔ s ∉ taken)
    (h : Sends keys taken bucket d) :
    tryDisplacement keys 0 owner bucket d =
      some (dFactorOf 0 d, bucket.map (slotFor keys 0 (dFactorOf 0 d))) := by
  rw [tryDisplacement, tryPositions_isSome (by simpa using h.1) fun k hk => (ho _).mpr (h.2 k hk)]
  rfl

theorem sends_of_tryDisplacement (ho : ∀ s, owner s = none ↔ s ∉ taken) {r : UInt64 × List ℕ}
    (h : tryDisplacement keys 0 owner bucket d = some r) : Sends keys taken bucket d := by
  obtain ⟨slots, hs, -⟩ := Option.map_eq_some_iff.mp h
  obtain ⟨rfl, hn, hfree⟩ := tryPositions_eq_some hs nodup_nil
  exact ⟨by simpa using hn, fun i hi => (ho _).mp (hfree i hi)⟩

/-- There is one least displacement. -/
theorem least_unique {P : ℕ → Prop} {e : ℕ} (hd : P d) (hdmin : ∀ x < d, ¬ P x) (he : P e)
    (hemin : ∀ x < e, ¬ P x) : d = e := by
  rcases Nat.lt_trichotomy d e with h | h | h
  · exact absurd hd (hemin d h)
  · exact h
  · exact absurd he (hdmin e h)

/-- With the largest limit, a search that ends has found the first displacement that places the
bucket. -/
theorem searchDisplacement_max (ho : ∀ s, owner s = none ↔ s ∉ taken)
    {found : Option (UInt64 × List ℕ)} :
    searchDisplacement keys 0 (2 ^ 32 - 1) owner bucket = some found ↔
      ∃ d < 2 ^ 32, Sends keys taken bucket d ∧ (∀ e < d, ¬ Sends keys taken bucket e) ∧
        found = some (dFactorOf 0 d, bucket.map (slotFor keys 0 (dFactorOf 0 d))) := by
  unfold searchDisplacement
  cases hfirst : firstSome (tryDisplacement keys 0 owner bucket) (2 ^ 32 - 1 + 1) 0 with
  | none =>
    rw [if_pos rfl]
    refine ⟨nofun, ?_⟩
    rintro ⟨d, hd, hs, -, -⟩
    have := firstSome_eq_none_iff.mp hfirst d (Nat.zero_le d) (by omega)
    rw [tryDisplacement_of_sends ho hs] at this
    cases this
  | some r =>
    obtain ⟨d, -, hd, hr, hleast⟩ := firstSome_eq_some hfirst
    have hs := sends_of_tryDisplacement ho hr
    have hmin : ∀ e < d, ¬ Sends keys taken bucket e := fun e he hse => by
      have := hleast e (Nat.zero_le e) he
      rw [tryDisplacement_of_sends ho hse] at this
      cases this
    obtain rfl : (dFactorOf 0 d, bucket.map (slotFor keys 0 (dFactorOf 0 d))) = r :=
      Option.some.inj ((tryDisplacement_of_sends ho hs).symm.trans hr)
    constructor
    · rintro ⟨⟩
      exact ⟨d, by omega, hs, hmin, rfl⟩
    · rintro ⟨e, -, hse, hmine, rfl⟩
      obtain rfl := least_unique hs hmin hse hmine
      rfl

/-- The slots taken after a bucket is placed. -/
theorem placeBucket_owner (p : Placement UInt64) (ho : ∀ s, p.owner s = none ↔ s ∉ taken) (b : ℕ)
    {d : UInt64} {slots : List ℕ} (hn : slots.Nodup) (hlen : slots.length = bucket.length) (s : ℕ) :
    (placeBucket (slotFor keys 0) 0 b bucket (some (d, slots)) p).owner s = none ↔
      s ∉ taken ++ slots := by
  have hsnd : (bucket.zip slots).map Prod.snd = slots := map_snd_zip hlen.le
  obtain ⟨h1, h2⟩ := assign_owner (l := bucket.zip slots) p (by rw [hsnd]; exact hn)
  rw [hsnd] at h2
  show (assign (bucket.zip slots) p).owner s = none ↔ _
  rw [mem_append, not_or]
  by_cases hs : s ∈ slots
  · rw [← hsnd] at hs
    obtain ⟨ks, hks, rfl⟩ := mem_map.mp hs
    rw [h1 ks hks]
    exact ⟨nofun, fun h => absurd (hsnd ▸ hs) h.2⟩
  · rw [h2 s hs, ho]
    exact ⟨fun h => ⟨h, hs⟩, fun h => h.1⟩

/-- One bucket with the largest limit. -/
theorem placeStep_max (ho : ∀ s, p.owner s = none ↔ s ∉ taken) (b : ℕ) {q : Placement UInt64}
    (h : placeStep keys 0 (2 ^ 32 - 1) p b = some q) :
    q.spilled = p.spilled ∧ ∃ d < 2 ^ 32, Sends keys taken (bucketAt keys 0 b) d ∧
      (∀ e < d, ¬ Sends keys taken (bucketAt keys 0 b) e) ∧
      ∀ s, q.owner s = none ↔ s ∉ taken ++ (bucketAt keys 0 b).map (slotFor keys 0 (dFactorOf 0 d)) := by
  unfold placeStep at h
  split at h
  · rename_i hempty
    cases h
    rw [hempty]
    exact ⟨rfl, 0, by decide, ⟨nodup_nil, nofun⟩, nofun, by simpa using ho⟩
  · obtain ⟨found, hfound, rfl⟩ := Option.map_eq_some_iff.mp h
    obtain ⟨d, hd, hs, hmin, rfl⟩ := (searchDisplacement_max ho).mp hfound
    exact ⟨(assign_rest p).2, d, hd, hs, hmin, placeBucket_owner p ho b hs.1 (by simp)⟩

theorem placeStep_max_isSome (ho : ∀ s, p.owner s = none ↔ s ∉ taken) {b : ℕ} (hd : d < 2 ^ 32)
    (hs : Sends keys taken (bucketAt keys 0 b) d)
    (hmin : ∀ e < d, ¬ Sends keys taken (bucketAt keys 0 b) e) :
    ∃ q, placeStep keys 0 (2 ^ 32 - 1) p b = some q := by
  unfold placeStep
  split
  · exact ⟨_, rfl⟩
  · rw [(searchDisplacement_max ho).mpr ⟨d, hd, hs, hmin, rfl⟩]
    exact ⟨_, rfl⟩

/-- The buckets of an attempt that ended with the largest limit fit, and none was spilled. -/
theorem fit_of_placeSteps {order : List ℕ} {q : Placement UInt64}
    (ho : ∀ s, p.owner s = none ↔ s ∉ taken)
    (h : order.foldlM (placeStep keys 0 (2 ^ 32 - 1)) p = some q) :
    BucketsFit keys order taken ∧ q.spilled = p.spilled := by
  induction order generalizing p taken with
  | nil =>
    cases h
    exact ⟨trivial, rfl⟩
  | cons b bs ih =>
    rw [foldlM_cons] at h
    obtain ⟨r, hr, h⟩ := Option.bind_eq_some_iff.mp h
    obtain ⟨hsp, d, hd, hs, hmin, hown⟩ := placeStep_max ho b hr
    obtain ⟨hfit, hq⟩ := ih hown h
    exact ⟨⟨d, hd, hs, hmin, hfit⟩, hq.trans hsp⟩

/-- Buckets that fit are placed. -/
theorem placeSteps_of_fit {order : List ℕ} (ho : ∀ s, p.owner s = none ↔ s ∉ taken)
    (h : BucketsFit keys order taken) :
    ∃ q, order.foldlM (placeStep keys 0 (2 ^ 32 - 1)) p = some q := by
  induction order generalizing p taken with
  | nil => exact ⟨p, rfl⟩
  | cons b bs ih =>
    obtain ⟨d, hd, hs, hmin, hfit⟩ := h
    obtain ⟨q, hq⟩ := placeStep_max_isSome ho hd hs hmin
    obtain ⟨-, e, -, hse, hmine, hown⟩ := placeStep_max ho b hq
    obtain rfl := least_unique hs hmin hse hmine
    obtain ⟨r, hr⟩ := ih hown hfit
    exact ⟨r, by rw [foldlM_cons, hq]; exact hr⟩

theorem noPlacement_free (s : ℕ) : noPlacement.owner s = none ↔ s ∉ ([] : List ℕ) :=
  ⟨fun _ => not_mem_nil, fun _ => rfl⟩

/-- **With the largest limit the search ends exactly when the first seed's buckets fit.** -/
theorem chdSolve_max {limits : SearchLimits} (hd : limits.maxD = 2 ^ 32 - 1) :
    (∃ a, chdSolve keys limits = some a) ↔ BucketsFit keys (bucketOrder keys 0) [] := by
  obtain ⟨fuel, hfuel⟩ : ∃ fuel, limits.retries = fuel + 1 :=
    ⟨limits.retries - 1, by have := limits.retries_pos; omega⟩
  constructor
  · rintro ⟨a, ha⟩
    by_cases hnil : keys = []
    · subst hnil
      exact (fit_of_placeSteps noPlacement_free (show placeAll [] 0 (2 ^ 32 - 1) = some _ from rfl)).1
    · rw [chdSolve, if_neg hnil, hfuel, hd, trySeeds] at ha
      obtain ⟨t, ht, -⟩ := Option.bind_eq_some_iff.mp ha
      obtain ⟨q, hq, -⟩ := Option.map_eq_some_iff.mp ht
      exact (fit_of_placeSteps noPlacement_free hq).1
  · intro hfit
    by_cases hnil : keys = []
    · exact ⟨_, by rw [chdSolve, if_pos hnil]⟩
    · obtain ⟨q, hq⟩ := placeSteps_of_fit noPlacement_free hfit
      have hsp : q.spilled = [] := (fit_of_placeSteps noPlacement_free hq).2
      have hatt : attempt keys 0 (2 ^ 32 - 1) = some ⟨0, q.disp, q.slot, []⟩ := by
        rw [attempt, placeAll, hq, Option.map_some, hsp]
        cases keys <;> rfl
      exact ⟨some ⟨0, q.disp, q.slot, []⟩, by rw [chdSolve, if_neg hnil, hfuel, hd, trySeeds, hatt]; rfl⟩

end Fit

/-! ## The round trip under every limit -/

/-- The displacement limit lets the search end: it is not the largest, or the buckets of the first
seed fit. -/
def LimitEnds (keySize : ℕ) (shortenKey : Bytes → UInt64) (bodies : List Bytes)
    (limits : SearchLimits) : Prop :=
  limits.maxD ≠ 2 ^ 32 - 1 ∨
    let keys := (MphfBuilder.ofBodies keySize shortenKey bodies).distinctKeys
    BucketsFit keys (bucketOrder keys 0) []

/-- **`MphfBuilder` round trip.**  For bodies with distinct keys and a region below `2^32` bytes:
`finalize` yields a region that `validate_mphf` accepts, whose entries tile the data section, and
over which `find` returns the body of each key added and nothing for any other key, and `for_each`
visits each body once, exactly when the displacement limit lets the search end. -/
theorem finalize_roundTrip (keySize magic : ℕ) (shortenKey : Bytes → UInt64) (bodies : List Bytes)
    (limits : SearchLimits) (hadd : MphfBuilder.Addable keySize bodies) (hmagic : magic < 2 ^ 32)
    (hsize : ∀ region ∈ (MphfBuilder.ofBodies keySize shortenKey bodies).finalize magic limits,
      region.length < 2 ^ 32) :
    (∃ region, (MphfBuilder.ofBodies keySize shortenKey bodies).finalize magic limits = some region ∧
      MphfBuilder.RoundTrip keySize shortenKey magic bodies region 0 region.length) ↔
    LimitEnds keySize shortenKey bodies limits := by
  have hends : (∃ region, (MphfBuilder.ofBodies keySize shortenKey bodies).finalize magic limits =
      some region) ↔
      ∃ a, chdSolve (MphfBuilder.ofBodies keySize shortenKey bodies).distinctKeys limits = some a := by
    constructor
    · rintro ⟨region, h⟩
      obtain ⟨a, ha, -⟩ := Option.map_eq_some_iff.mp h
      exact ⟨a, ha⟩
    · rintro ⟨a, ha⟩
      exact ⟨_, by rw [MphfBuilder.finalize]; exact Option.map_eq_some_iff.mpr ⟨a, ha, rfl⟩⟩
  have htrip : ∀ region, (MphfBuilder.ofBodies keySize shortenKey bodies).finalize magic limits =
      some region →
      MphfBuilder.RoundTrip keySize shortenKey magic bodies region 0 region.length := fun region h =>
    MphfBuilder.roundTrip_of_finalize hadd hmagic h (hsize region h) (LiesAt.self region) rfl
  refine Iff.trans (exists_congr fun region => and_iff_left_of_imp (htrip region)) (hends.trans ?_)
  by_cases hd : limits.maxD = 2 ^ 32 - 1
  · rw [chdSolve_max hd, LimitEnds]
    exact ⟨.inr, fun h => h.resolve_left fun hne => hne hd⟩
  · obtain ⟨a, ha⟩ :=
      @chdSolve_isSome (MphfBuilder.ofBodies keySize shortenKey bodies).distinctKeys limits hd
    exact ⟨fun _ => .inl hd, fun _ => ⟨_, ha⟩⟩

namespace Twins

/-- The short form of a hash. -/
def shortenKey (key : Bytes) : UInt64 := UInt64.ofNat (hashKey8 key)

/-- Three bodies, two of one short key. -/
def shared : List Bytes :=
  [[1, 2], [1, 3], [4, 5]].map fun l => replicate 8 (l.getD 0 0) ++ replicate 25 (l.getD 1 0)

theorem shared_addable : MphfBuilder.Addable 32 shared := ⟨by decide, by decide, by decide⟩

end Twins

theorem finalize_roundTrip_shared :
    ∃ region, (MphfBuilder.ofBodies 32 Twins.shortenKey Twins.shared).finalize 0x4342545A {} =
      some region ∧
      MphfBuilder.RoundTrip 32 Twins.shortenKey 0x4342545A Twins.shared region 0 region.length :=
  (finalize_roundTrip 32 0x4342545A Twins.shortenKey Twins.shared {} Twins.shared_addable (by decide)
    (by decide +kernel)).mpr (.inl (by decide))

/-! ## The endless search -/

namespace Twins

/-- Eight short keys of one bucket, ascending; each of the first four has its twin four places on.
-/
def keys : List UInt64 :=
  [75, 83, 75 + 0x200000000, 83 + 0x200000000, 75 + 0x8000000200000008, 83 + 0x8000000200000008,
    75 + 0x200000000 + 0x8000000200000008, 83 + 0x200000000 + 0x8000000200000008]

/-- Bodies that start with the keys. -/
def bodies : List Bytes := keys.map fun k => toLe 8 k.toNat ++ replicate 24 0

/-- The largest displacement limit. -/
def limits : SearchLimits := { maxDisplacement := 0xFFFFFFFF }

theorem bucket_zero : bucketAt keys 0 0 = [0, 1, 2, 3, 4, 5, 6, 7] := by decide +kernel

theorem order_eq : bucketOrder keys 0 = [0, 1] := by decide +kernel

theorem distinctKeys_eq :
    (MphfBuilder.ofBodies 32 shortenKey bodies).distinctKeys = keys := by decide +kernel

/-- No displacement places the bucket. -/
theorem not_sends (taken : List ℕ) (d : ℕ) : ¬ Sends keys taken (bucketAt keys 0 0) d := by
  rintro ⟨hn, -⟩
  rw [bucket_zero] at hn
  obtain ⟨c, hc, heq⟩ := slot_twins 75 (dFactorOf 0 d) 8
  -- the twin of the key with offset `c`
  have hpair : ∃ i < 4, slotFor keys 0 (dFactorOf 0 d) i = slotFor keys 0 (dFactorOf 0 d) (i + 4) := by
    simp only [mem_cons, not_mem_nil, or_false] at hc
    rcases hc with rfl | rfl | rfl | rfl
    · exact ⟨0, by decide, heq⟩
    · exact ⟨1, by decide, heq⟩
    · exact ⟨2, by decide, heq⟩
    · exact ⟨3, by decide, heq⟩
  obtain ⟨i, hi, hslot⟩ := hpair
  have hinj := inj_on_of_nodup_map hn (x := i) (y := i + 4)
    (by simp only [mem_cons, not_mem_nil, or_false]; omega)
    (by simp only [mem_cons, not_mem_nil, or_false]; omega) hslot
  omega

end Twins

/-- **Eight entries that the largest limit never finishes**: `finalize` has no result, and in
particular no region that serves them. -/
theorem finalize_endless : MphfBuilder.Addable 32 Twins.bodies ∧
    (∀ magic, (MphfBuilder.ofBodies 32 Twins.shortenKey Twins.bodies).finalize magic Twins.limits =
      none) ∧
    ¬ LimitEnds 32 Twins.shortenKey Twins.bodies Twins.limits := by
  have hfit : ¬ BucketsFit Twins.keys (bucketOrder Twins.keys 0) [] := by
    rw [Twins.order_eq]
    rintro ⟨d, -, hs, -, -⟩
    exact Twins.not_sends [] d hs
  refine ⟨⟨by decide, by decide, by decide⟩, fun magic => ?_, ?_⟩
  · have hnone : chdSolve Twins.keys Twins.limits = none := by
      by_contra hne
      exact hfit ((chdSolve_max rfl).mp (Option.ne_none_iff_exists'.mp hne))
    rw [MphfBuilder.finalize]
    simp only [Twins.distinctKeys_eq, hnone, Option.map_none]
  · rintro (h | h)
    · exact h rfl
    · simp only [Twins.distinctKeys_eq] at h
      exact hfit h

end Zilkworm.Witness
