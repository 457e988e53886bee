/-
# A built map answers with what was added

`MphfBuilder::finalize` read back by `MphfMap`: the region of a solved attempt indexes its
entries, every body is found under its key, and nothing else is.  A live key's slot holds
its own offset; the slot of a key in the sidecar is empty, because a live key shares its
slot with no key, and the sidecar is sorted, so that its run of a short key is complete.
-/
import Zilkworm.Witness.MphfEntries
import Zilkworm.Witness.MphfSolve
import Zilkworm.Witness.MphfTables

namespace Zilkworm.Witness

open List Lib

theorem entryOffsets_append (cur : ℕ) (x y : List Bytes) :
    entryOffsets cur (x ++ y) =
      entryOffsets cur x ++ entryOffsets (cur + (x.map fun body => entrySize body.length).sum) y := by
  induction x generalizing cur with
  | nil => rfl
  | cons body x ih =>
    rw [cons_append, entryOffsets, entryOffsets, ih, cons_append, map_cons, sum_cons,
      Nat.add_assoc]

/-! ## The region of a solution -/

namespace MphfBuilder

section Tables

variable (b : MphfBuilder) (keys : List UInt64) (a : Attempt)

/-- The keys with a body, by index. -/
def liveIdx : List ℕ := (range keys.length).filter fun i => b.body (keys.getD i 0) ≠ []

/-- Their bodies. -/
def liveBodies : List Bytes := (b.liveIdx keys).map fun i => b.body (keys.getD i 0)

/-- Their offsets. -/
def liveOffsets : List ℕ := entryOffsets 8 (b.liveBodies keys)

/-- The offsets of the sidecar's bodies. -/
def sidecarOffsets : List ℕ :=
  entryOffsets (8 + ((b.liveBodies keys).map fun body => entrySize body.length).sum)
    (b.collisions.map Prod.snd)

/-- The slots of the live keys. -/
def slotEntries :
    List (ℕ × ℕ) := ((b.liveIdx keys).zip (b.liveOffsets keys)).map fun e => (a.slot e.1, e.2)

theorem liveOffsets_length : (b.liveOffsets keys).length = (b.liveIdx keys).length := by
  rw [liveOffsets, entryOffsets_length, liveBodies, length_map]

theorem region_bodies : (b.region keys a).bodies = b.liveBodies keys ++ b.collisions.map Prod.snd := rfl

theorem region_offsets :
    entryOffsets 8 (b.region keys a).bodies = b.liveOffsets keys ++ b.sidecarOffsets keys :=
  entryOffsets_append 8 _ _

theorem region_slots :
    (b.region keys a).slots = (range keys.length).map (fill (b.slotEntries keys a) fun _ => 0) := by
  have hzip : (b.liveIdx keys).zip (b.liveOffsets keys ++ b.sidecarOffsets keys) =
      (b.liveIdx keys).zip (b.liveOffsets keys) := by
    have := @List.zip_append _ _ (b.liveIdx keys) [] (b.liveOffsets keys) (b.sidecarOffsets keys)
      (b.liveOffsets_length keys).symm
    simpa using this
  show (range keys.length).map (((b.liveIdx keys).zip (entryOffsets 8 (b.region keys a).bodies)).foldl
    (fun s e => Function.update s (a.slot e.1) e.2) fun _ => 0) = _
  rw [region_offsets, hzip, fill, slotEntries, foldl_map]

theorem region_collisions : (b.region keys a).collisions =
    ((b.collisions.map Prod.fst).zip (b.sidecarOffsets keys)).insertionSort fun x y => x.1 ≤ y.1 := by
  show ((b.collisions.map Prod.fst).zip
      ((entryOffsets 8 (b.region keys a).bodies).drop (b.liveIdx keys).length)
    ).insertionSort _ = _
  rw [region_offsets, ← b.liveOffsets_length keys, drop_left]

end Tables

section Solved

variable {b : MphfBuilder} {keys : List UInt64} {a : Attempt} {added : List (UInt64 × Bytes)}

/-- The state in which `finalize` writes the region: the attempt solves the keys, the builder holds
the entries, and the spilled keys are in the sidecar. -/
structure Solved (b : MphfBuilder) (keys : List UInt64) (a : Attempt)
    (added : List (UInt64 × Bytes)) : Prop where
  holds : b.Holds keys added
  solves : a.Solves keys
  spilled : ∀ i ∈ a.spilled, b.body (keys.getD i 0) = []

theorem mem_liveIdx {i : ℕ} : i ∈ b.liveIdx keys ↔ i < keys.length ∧ b.body (keys.getD i 0) ≠ [] := by
  simp [liveIdx]

/-- A live key shares its slot with no key. -/
theorem Solved.unshared (h : b.Solved keys a added) {i j : ℕ} (hi : i < keys.length)
    (hj : j ∈ b.liveIdx keys) (heq : a.slot i = a.slot j) : i = j := by
  obtain ⟨hlt, hne⟩ := mem_liveIdx.mp hj
  exact h.solves.unshared i hi j hlt (fun hsp => hne (h.spilled j hsp)) heq

theorem liveIdx_nodup : (b.liveIdx keys).Nodup := nodup_range.filter _

/-- Each live key writes a slot of its own. -/
theorem Solved.slotEntries_nodup (h : b.Solved keys a added) :
    ((b.slotEntries keys a).map Prod.fst).Nodup := by
  have hmap : (b.slotEntries keys a).map Prod.fst = (b.liveIdx keys).map a.slot := by
    rw [slotEntries, map_map]
    show ((b.liveIdx keys).zip (b.liveOffsets keys)).map (a.slot ∘ Prod.fst) = _
    rw [← map_map, map_fst_zip (b.liveOffsets_length keys).ge]
  rw [hmap]
  exact Nodup.map_on (fun i hi j hj heq => h.unshared (mem_liveIdx.mp hi).1 hj heq) liveIdx_nodup

theorem mem_slotEntries {e : ℕ × ℕ} (he : e ∈ b.slotEntries keys a) :
    ∃ i ∈ b.liveIdx keys, e.1 = a.slot i ∧ e.2 ∈ b.liveOffsets keys := by
  obtain ⟨⟨i, off⟩, hmem, rfl⟩ := mem_map.mp he
  exact ⟨i, (of_mem_zip hmem).1, rfl, (of_mem_zip hmem).2⟩

/-- **The region indexes its entries.** -/
theorem Solved.indexed (h : b.Solved keys a added) : (b.region keys a).Indexed := by
  have hslots := @fill_perm keys.length (b.slotEntries keys a) (fun _ => 0) h.slotEntries_nodup
    fun e he => by
    obtain ⟨i, hi, h1, h2⟩ := mem_slotEntries he
    have := entryOffsets_ge h2
    exact ⟨h1 ▸ h.solves.slot_lt (mem_liveIdx.mp hi).1, rfl, by omega⟩
  have hzero : ((range keys.length).map fun _ => 0).filter (· ≠ 0) = [] := by
    simp
  have hsnd : (b.slotEntries keys a).map Prod.snd = b.liveOffsets keys := by
    rw [slotEntries, map_map]
    exact map_snd_zip (b.liveOffsets_length keys).le
  have hcoll : (b.region keys a).collisions.map Prod.snd |>.Perm (b.sidecarOffsets keys) := by
    rw [region_collisions]
    refine ((perm_insertionSort _ _).map _).trans (Perm.of_eq (map_snd_zip ?_))
    rw [sidecarOffsets, entryOffsets_length, length_map, length_map]
  rw [hsnd, hzero, append_nil, ← region_slots] at hslots
  rw [Region.Indexed, region_offsets]
  exact hslots.append hcoll

/-- The bodies of the region are those added. -/
theorem Holds.bodies_perm (h : b.Holds keys added) (a : Attempt) :
    (b.region keys a).bodies.Perm (added.map Prod.snd) := by
  refine Perm.trans (Perm.of_eq ?_) (h.perm.map Prod.snd)
  have hlive : b.liveBodies keys = (liveOf b.body keys).map Prod.snd := by
    have hkeys : keys = (range keys.length).map fun i => keys.getD i 0 :=
      ext_getElem? fun i => by
        by_cases hi : i < keys.length
        · rw [getElem?_map, getElem?_range hi, Option.map_some, getD_eq_getElem?_getD,
            getElem?_eq_getElem hi, Option.getD_some]
        · rw [getElem?_eq_none (by simpa using hi), getElem?_eq_none (by simpa using hi)]
    rw [liveOf, map_map]
    conv_rhs => rw [hkeys, filter_map, map_map]
    rfl
  rw [region_bodies, map_append, hlive]

/-! ## Lookups in the region -/

theorem getD_eq_of_getElem? {l : List UInt64} {i : ℕ} {k : UInt64} (h : l[i]? = some k) :
    l.getD i 0 = k := by
  rw [getD_eq_getElem?_getD, h, Option.getD_some]

theorem getD_mem {l : List UInt64} {i : ℕ} (h : i < l.length) : l.getD i 0 ∈ l := by
  rw [getD_eq_getElem?_getD, getElem?_eq_getElem h, Option.getD_some]
  exact getElem_mem h

/-- An entry under its own slot: where it lies, and the slot that has its offset. -/
theorem Solved.live_entry (h : b.Solved keys a added) {e : UInt64 × Bytes}
    (he : e ∈ liveOf b.body keys) :
    ∃ i off, keys[i]? = some e.1 ∧ (b.region keys a).slots[a.slot i]? = some off ∧ off ≠ 0 ∧
      (off, e.2) ∈ (entryOffsets 8 (b.region keys a).bodies).zip (b.region keys a).bodies := by
  obtain ⟨k, hk, rfl⟩ := mem_map.mp he
  obtain ⟨hmem, hne⟩ := mem_filter.mp hk
  obtain ⟨i, hi⟩ := mem_iff_getElem?.mp hmem
  have hget := getD_eq_of_getElem? hi
  have hlt : i < keys.length := (List.getElem?_eq_some_iff.mp hi).1
  have hlive : i ∈ b.liveIdx keys := mem_liveIdx.mpr ⟨hlt, by rw [hget]; simpa using hne⟩
  -- the key's offset is at the same place among the offsets
  have hlen := b.liveOffsets_length keys
  obtain ⟨j, hj, hji⟩ := getElem_of_mem hlive
  have hoff : (b.liveOffsets keys)[j]? = some ((b.liveOffsets keys).get ⟨j, by omega⟩) :=
    getElem?_eq_getElem (by omega)
  generalize (b.liveOffsets keys).get ⟨j, by omega⟩ = off at hoff
  have hzip : (i, off) ∈ (b.liveIdx keys).zip (b.liveOffsets keys) :=
    mem_iff_getElem?.mpr
      ⟨j, by rw [getElem?_zip_eq_some]; exact ⟨by rw [getElem?_eq_getElem hj, hji], hoff⟩⟩
  refine ⟨i, off, hi, ?_, ?_, ?_⟩
  · rw [region_slots, getElem?_map, getElem?_range (h.solves.slot_lt hlt), Option.map_some,
      fill_of_mem h.slotEntries_nodup (mem_map.mpr ⟨(i, off), hzip, rfl⟩)]
  · have := entryOffsets_ge (mem_of_getElem? hoff)
    omega
  · rw [region_offsets, region_bodies, zip_append (by rw [liveOffsets, entryOffsets_length])]
    refine mem_append_left _ (mem_iff_getElem?.mpr ⟨j, ?_⟩)
    rw [getElem?_zip_eq_some]
    refine ⟨hoff, ?_⟩
    rw [liveBodies, getElem?_map, getElem?_eq_getElem hj, hji, Option.map_some, hget]

/-- An entry of the sidecar: where it lies, and that its key's slot is empty. -/
theorem Solved.sidecar_entry (h : b.Solved keys a added) {e : UInt64 × Bytes} (he : e ∈ b.collisions) :
    ∃ i off, keys[i]? = some e.1 ∧ (b.region keys a).slots[a.slot i]? = some 0 ∧
      (e.1, off) ∈ (b.region keys a).collisions ∧
      (off, e.2) ∈ (entryOffsets 8 (b.region keys a).bodies).zip (b.region keys a).bodies := by
  obtain ⟨hkey, hbody⟩ := h.holds.cleared e he
  obtain ⟨i, hi⟩ := mem_iff_getElem?.mp hkey
  have hlt : i < keys.length := (List.getElem?_eq_some_iff.mp hi).1
  obtain ⟨j, hj⟩ := mem_iff_getElem?.mp he
  have hjlt : j < b.collisions.length := (List.getElem?_eq_some_iff.mp hj).1
  have hlen : (b.sidecarOffsets keys).length = b.collisions.length := by
    rw [sidecarOffsets, entryOffsets_length, length_map]
  obtain ⟨off, hoff⟩ : ∃ off, (b.sidecarOffsets keys)[j]? = some off :=
    ⟨_, getElem?_eq_getElem (by omega)⟩
  refine ⟨i, off, hi, ?_, ?_, ?_⟩
  · -- a live key with this slot would be this key, which has no body
    rw [region_slots, getElem?_map, getElem?_range (h.solves.slot_lt hlt), Option.map_some,
      fill_of_notMem fun hmem => ?_]
    obtain ⟨x, hx, hslot⟩ := mem_map.mp hmem
    obtain ⟨i', hi', h1, -⟩ := mem_slotEntries hx
    obtain rfl := h.unshared hlt hi' (by rw [← hslot, h1])
    exact (mem_liveIdx.mp hi').2 (by rw [getD_eq_of_getElem? hi, hbody])
  · rw [region_collisions, (perm_insertionSort _ _).mem_iff]
    refine mem_iff_getElem?.mpr ⟨j, ?_⟩
    rw [getElem?_zip_eq_some]
    exact ⟨by rw [getElem?_map, hj]; rfl, hoff⟩
  · rw [region_offsets, region_bodies, zip_append (by rw [liveOffsets, entryOffsets_length])]
    refine mem_append_right _ (mem_iff_getElem?.mpr ⟨j, ?_⟩)
    rw [getElem?_zip_eq_some]
    exact ⟨hoff, by rw [getElem?_map, hj]; rfl⟩

section Lookup

variable {buf : Bytes} {magic base : ℕ}

/-- A lookup computes the slot the attempt gave the key. -/
theorem Solved.indexLookup_eq (h : b.Solved keys a added)
    (hs : (b.region keys a).Sections magic buf base) {i : ℕ} {k : UInt64} (hi : keys[i]? = some k) :
    ((b.region keys a).map magic base).indexLookup buf k = a.slot i := by
  have hlt : i < keys.length := (List.getElem?_eq_some_iff.mp hi).1
  have hz : k + UInt64.ofNat (seedFactorOf a.seedTry).toNat = z1Of keys a.seedTry i := by
    rw [UInt64.ofNat_toNat, z1Of, getD_eq_of_getElem? hi]
  have hn : ((range (nBucketsFor keys.length)).map a.disp).length = nBucketsFor keys.length := by
    rw [length_map, length_range]
  have hk : (b.region keys a).slots.length = keys.length := by
    rw [region_slots, length_map, length_range]
  have hdisp : (b.region keys a).disp[bucketOf keys a.seedTry i]? =
      some (a.disp (bucketOf keys a.seedTry i)) := by
    show ((range (nBucketsFor keys.length)).map a.disp)[_]? = _
    rw [getElem?_map, getElem?_range (bucketOf_lt i), Option.map_some]
  have hdf := Region.displacement_eq hs hdisp
  rw [h.solves.slot i hlt, slotFor]
  show fastModU32
      (mix64Body (k + UInt64.ofNat (seedFactorOf a.seedTry).toNat + UInt64.ofNat (u64At buf (base +
    mphfHeaderSize + 8 * fastModU32 (mix64Body (k + UInt64.ofNat (seedFactorOf a.seedTry).toNat))
      ((range (nBucketsFor keys.length)).map a.disp).length)))) (b.region keys a).slots.length = _
  rw [hz, hn, hk]
  unfold bucketOf at hdf
  rw [hdf, UInt64.ofNat_toNat]
  rfl

/-- What a lookup compares. -/
theorem bodyIfKey_eq {r : Region} (hs : r.Sections magic buf base) (hf : r.Fits magic) {off : ℕ}
    {key body : Bytes} (he : (off, body) ∈ (entryOffsets 8 r.bodies).zip r.bodies)
    (hkey : body.take key.length = key) :
    (r.map magic base).bodyIfKey buf 0 key off =
      some ((r.map magic base).data + off + 8, body.length) := by
  obtain ⟨hlen, hbody⟩ := Region.entry_eq hs hf he
  have hpre : LiesAt buf ((r.map magic base).data + off + 8) key :=
    List.IsPrefix.trans (hkey ▸ take_prefix _ _) hbody
  unfold MphfMap.bodyIfKey
  rw [if_pos hpre.slice_eq, hlen]

/-- A body that a lookup returns is an entry with the key. -/
theorem find_sound {r : Region} (hs : r.Sections magic buf base) (hf : r.Fits magic)
    (hx : r.Indexed) {k8 : ℕ}
    {key : Bytes} (hkeys : ∀ body ∈ r.bodies, key.length ≤ body.length) {res : ℕ × ℕ}
    (h : (r.map magic base).find buf 0 k8 key = some res) :
    ∃ off body, (off, body) ∈ (entryOffsets 8 r.bodies).zip r.bodies ∧
      res = ((r.map magic base).data + off + 8, body.length) ∧ body.take key.length = key := by
  obtain ⟨off, hoff, rfl, hkey⟩ := MphfMap.find_entry h
  have hslots : r.slots ≠ [] := fun hnil => by
    rw [MphfMap.forEachOffset, if_pos (by rw [Region.map, Region.mapHeader, hnil]; rfl)] at hoff
    cases hoff
  rw [Region.forEachOffset_eq hs hf hslots] at hoff
  obtain ⟨body, hmem, he⟩ := mem_entryOffsets (hx.mem_iff.mp hoff)
  obtain ⟨hlen, hbody⟩ := Region.entry_eq hs hf he
  refine ⟨off, body, he, by rw [hlen], ?_⟩
  have hle := hkeys body hmem
  calc body.take key.length
      = (slice buf ((r.map magic base).data + off + 8) body.length).take
        key.length := by rw [hbody.slice_eq]
    _ = slice buf ((r.map magic base).data + off + 8 + 0) key.length := by
        rw [slice, take_take, min_eq_left hle]; rfl
    _ = key := hkey

/-- **Every entry is reached** from its short key. -/
theorem Solved.find_isSome (h : b.Solved keys a added) (hs : (b.region keys a).Sections magic buf base)
    (hf : (b.region keys a).Fits magic) {e : UInt64 × Bytes} (he : e ∈ added) {key : Bytes}
    (hkey : e.2.take key.length = key) :
    ∃ res, ((b.region keys a).map magic base).find buf 0 e.1.toNat key = some res := by
  have hk : (b.region keys a).slots.length = keys.length := by
    rw [region_slots, length_map, length_range]
  have hnz : ∀ {i : ℕ}, keys[i]? = some e.1 → ¬ ((b.region keys a).map magic base).hdr.nKeys = 0 :=
    fun hi h0 => by
    have := (List.getElem?_eq_some_iff.mp hi).1
    have h0 : (b.region keys a).slots.length = 0 := h0
    omega
  unfold MphfMap.find
  rcases mem_append.mp (h.holds.perm.mem_iff.mpr he) with he | he
  · obtain ⟨i, off, hi, hslot, hne, hentry⟩ := h.live_entry he
    rw [if_neg (hnz hi), UInt64.ofNat_toNat, h.indexLookup_eq hs hi]
    rw [Region.slotOffset_eq hs hf hslot, if_pos hne, bodyIfKey_eq hs hf hentry hkey]
    exact ⟨_, rfl⟩
  · obtain ⟨i, off, hi, hslot, hcoll, hentry⟩ := h.sidecar_entry he
    rw [if_neg (hnz hi), UInt64.ofNat_toNat, h.indexLookup_eq hs hi]
    have hpos : ((b.region keys a).map magic base).nCollisions > 0 := by
      rw [Region.nCollisions_eq]
      exact length_pos_of_mem hcoll
    rw [Region.slotOffset_eq hs hf hslot, if_neg (by decide), if_pos hpos]
    -- the sidecar is sorted, so that its run of the short key has the entry
    have hsorted : ((b.region keys a).collisions.map fun e => (e.1.toNat, e.2)).Pairwise fun x y =>
        x.1 ≤ y.1 := by
      exact pairwise_map.mpr (pairwise_insertionSort (fun x y : UInt64 × ℕ => x.1 ≤ y.1) _)
    have hrun := sorted_run Prod.fst (0, 0) e.1.toNat hsorted
    rw [length_map] at hrun
    unfold MphfMap.resolveCollision
    dsimp only
    rw [Region.collisions_eq hs hf, Region.nCollisions_eq, hrun, ← Option.isSome_iff_exists,
      findSome?_isSome_iff]
    refine ⟨(e.1.toNat, off), ?_, by rw [bodyIfKey_eq hs hf hentry hkey]; rfl⟩
    exact mem_filter.mpr ⟨mem_map.mpr ⟨_, hcoll, rfl⟩, by simp⟩

end Lookup

end Solved

/-! ## `finalize` -/

section Finalize

variable {keySize magic base : ℕ}
  {shortenKey : Bytes → UInt64} {bodies : List Bytes} {limits : SearchLimits}
  {buf region : Bytes}

/-- What a map over a list of bodies answers: each body under the key it starts with, nothing under
any other key, and each body once to `for_each`. -/
structure Serves (keySize : ℕ) (shortenKey : Bytes → UInt64) (bodies : List Bytes) (buf : Bytes)
    (m : MphfMap) :
    Prop where
  found : ∀ body ∈ bodies, ∃ res,
    m.find buf 0 (shortenKey (body.take keySize)).toNat (body.take keySize) = some res ∧
    slice buf res.1 res.2 = body
  missing : ∀ key k8, key.length = keySize → (∀ body ∈ bodies, body.take keySize ≠ key) →
    m.find buf 0 k8 key = none
  visited : ((m.forEach buf).map fun res => slice buf res.1 res.2).Perm bodies

/-- A region at `base` that was built from a list of bodies. -/
structure RoundTrip (keySize : ℕ) (shortenKey : Bytes → UInt64) (magic : ℕ) (bodies : List Bytes)
    (buf : Bytes) (base size : ℕ) : Prop where
  valid : validateMphf keySize 0 buf base size magic = .ok ()
  tile : mphfEntriesTile buf (some (MphfMap.reset buf base)) = true
  serves : Serves keySize shortenKey bodies buf (MphfMap.reset buf base)

/-- Bodies that can be added: each has a whole key, and no two have the same. -/
structure Addable (keySize : ℕ) (bodies : List Bytes) : Prop where
  pos : 0 < keySize
  whole : ∀ body ∈ bodies, keySize ≤ body.length
  distinct : (bodies.map (List.take keySize)).Nodup

theorem Addable.nil_notMem (h : Addable keySize bodies) : [] ∉ bodies := fun hmem => by
  have := h.whole [] hmem
  have := h.pos
  rw [length_nil] at *
  omega

theorem take_length {body : Bytes} (h : keySize ≤ body.length) :
    (body.take keySize).length = keySize := by
  rw [length_take, min_eq_left h]

theorem trySeeds_ne_none {f : ℕ → Option Attempt} {fuel seedTry : ℕ} {best : Option Attempt}
    (h : best.isSome ∨ 0 < fuel) : trySeeds f fuel seedTry best ≠ some none := by
  induction fuel generalizing seedTry best with
  | zero =>
    rintro ⟨⟩
    simp at h
  | succ fuel ih =>
    intro heq
    obtain ⟨t, -, heq⟩ := Option.bind_eq_some_iff.mp heq
    split_ifs at heq
    · cases heq
    · exact ih (.inl rfl) heq

/-- What `finalize` writes is the region of a solved attempt. -/
theorem finalize_solved (hne : [] ∉ bodies)
    (h : (ofBodies keySize shortenKey bodies).finalize magic limits = some region) :
    ∃ b keys a, Solved b keys a (bodies.map fun body => (shortenKey (body.take keySize), body)) ∧
      a.seedTry < 2 ^ 32 ∧ region = (b.region keys a).bytes magic := by
  have hholds := @ofBodies_holds keySize shortenKey bodies hne
  generalize ofBodies keySize shortenKey bodies = b at h hholds
  obtain ⟨o, ho, h⟩ := Option.map_eq_some_iff.mp h
  cases o with
  | none =>
    refine absurd ho ?_
    unfold chdSolve
    split_ifs
    · nofun
    · exact trySeeds_ne_none (.inr limits.retries_pos)
  | some a =>
    obtain ⟨hsolves, hseed⟩ := chdSolve_solves ho
    have hin : ∀ k ∈ a.spilled.map fun i => b.distinctKeys.getD i 0, k ∈ b.distinctKeys := fun k hk => by
      obtain ⟨i, hi, rfl⟩ := mem_map.mp hk
      exact getD_mem (hsolves.spilled i hi)
    have hspill := hholds.spill hin
    have hbody := foldl_toSidecar_body (a.spilled.map fun i => b.distinctKeys.getD i 0) b
    rw [foldl_map] at hspill hbody
    exact ⟨_, _, a,
      ⟨hspill, hsolves, fun i hi => (hbody _).trans (if_pos (mem_map.mpr ⟨i, hi, rfl⟩))⟩, hseed,
      h.symm⟩

/-- Below the largest displacement limit `finalize` ends. -/
theorem finalize_isSome (b : MphfBuilder) (magic : ℕ) {limits : SearchLimits}
    (hd : limits.maxD ≠ 2 ^ 32 - 1) :
    ∃ region, b.finalize magic limits = some region := by
  obtain ⟨a, ha⟩ := @chdSolve_isSome b.distinctKeys limits hd
  exact ⟨_, by rw [finalize]; exact Option.map_eq_some_iff.mpr ⟨some a, ha, rfl⟩⟩

/-- The numbers of a small region fit their words. -/
theorem Solved.fits {b : MphfBuilder} {keys : List UInt64} {a : Attempt} {added : List (UInt64 × Bytes)}
    (h : b.Solved keys a added) (hseed : a.seedTry < 2 ^ 32) (hmagic : magic < 2 ^ 32)
    (hsize : ((b.region keys a).bytes magic).length < 2 ^ 32) : (b.region keys a).Fits magic := by
  have hoff :
      ∀ off ∈ (b.region keys a).slots.filter (· ≠ 0) ++ (b.region keys a).collisions.map Prod.snd,
      off < 2 ^ 32 := fun off hmem => by
    obtain ⟨body, -, he⟩ := mem_entryOffsets (h.indexed.mem_iff.mp hmem)
    have hb := (entryOffsets_bounds (by decide) he).2.2
    rw [Region.bytes_length, Region.dataSize] at hsize
    omega
  refine ⟨hmagic, ?_, hsize, fun s hs => ?_, fun e he => ?_⟩
  · exact hseed.trans (by decide)
  · by_cases h0 : s = 0
    · rw [h0]; decide
    · exact hoff s (mem_append_left _ (mem_filter.mpr ⟨hs, by simpa using h0⟩))
  · exact hoff e.2 (mem_append_right _ (mem_map.mpr ⟨e, he, rfl⟩))

/-- **A region built from bodies**: it holds each of them and reaches each from its short key. -/
structure Built (keySize : ℕ) (shortenKey : Bytes → UInt64) (magic : ℕ) (bodies : List Bytes)
    (r : Region) :
    Prop where
  fits : r.Fits magic
  indexed : r.Indexed
  buckets : r.disp ≠ []
  keyless : r.slots = [] → r.bodies = []
  perm : r.bodies.Perm bodies
  reached : ∀ {buf base}, r.Sections magic buf base →
    ∀ body ∈ bodies, ∀ key, body.take key.length = key →
    ∃ res, (r.map magic base).find buf 0 (shortenKey (body.take keySize)).toNat key = some res

/-- What `finalize` writes is a region built from what was added. -/
theorem finalize_built (hne : [] ∉ bodies) (hmagic : magic < 2 ^ 32)
    (h : (ofBodies keySize shortenKey bodies).finalize magic limits = some region)
    (hsize : region.length < 2 ^ 32) :
    ∃ r, region = r.bytes magic ∧ Built keySize shortenKey magic bodies r := by
  obtain ⟨b, keys, a, hsolved, hseed, rfl⟩ := finalize_solved hne h
  have hf := hsolved.fits hseed hmagic hsize
  refine ⟨b.region keys a, rfl, hf, hsolved.indexed, fun hnil => ?_, fun hnil => ?_, ?_,
    fun hs body hbody key hkey => hsolved.find_isSome hs hf (mem_map.mpr ⟨body, hbody, rfl⟩) hkey⟩
  · have hlen := congrArg List.length hnil
    have hlen : ((range (nBucketsFor keys.length)).map a.disp).length = 0 := hlen
    rw [length_map, length_range, nBucketsFor] at hlen
    omega
  · have hlen := congrArg List.length hnil
    rw [region_slots, length_map, length_range, length_nil] at hlen
    obtain rfl := length_eq_zero_iff.mp hlen
    have hcoll : b.collisions = [] := eq_nil_iff_forall_not_mem.mpr fun e he => by
      cases (hsolved.holds.cleared e he).1
    rw [region_bodies, hcoll]
    rfl
  · have := hsolved.holds.bodies_perm a
    rwa [map_map, show (Prod.snd ∘ fun body : Bytes => (shortenKey (body.take keySize), body)) =
      id from rfl,
      map_id] at this

section Built

variable {r : Region} (h : Built keySize shortenKey magic bodies r)
include h

theorem Built.bodies_whole (hwhole : ∀ body ∈ bodies, keySize ≤ body.length) :
    ∀ body ∈ r.bodies, keySize ≤ body.length := fun body hmem => hwhole body (h.perm.mem_iff.mp hmem)

/-- **A body is found at its entry**, if its key is its own. -/
theorem Built.found (hs : r.Sections magic buf base) (hwhole : ∀ body ∈ bodies, keySize ≤ body.length)
    {body : Bytes} (hbody : body ∈ bodies)
    (hkeyed : ∀ x ∈ bodies, x.take keySize = body.take keySize → x = body) :
    ∃ off, (off, body) ∈ (entryOffsets 8 r.bodies).zip r.bodies ∧
      (r.map magic base).find buf 0 (shortenKey (body.take keySize)).toNat (body.take keySize) =
        some ((r.map magic base).data + off + 8, body.length) := by
  have hlen := take_length (hwhole body hbody)
  obtain ⟨res, hres⟩ := h.reached hs body hbody (body.take keySize) (by rw [hlen])
  obtain ⟨off, x, he, rfl, hkey⟩ :=
    find_sound hs h.fits h.indexed (by rw [hlen]; exact h.bodies_whole hwhole) hres
  rw [hlen] at hkey
  obtain rfl := hkeyed x (h.perm.mem_iff.mp (of_mem_zip he).2) hkey
  exact ⟨off, he, hres⟩

/-- A key that no body has is not found. -/
theorem Built.missing (hs : r.Sections magic buf base)
    (hwhole : ∀ body ∈ bodies, keySize ≤ body.length) {key : Bytes}
    (hlen : key.length = keySize) (hmiss : ∀ body ∈ bodies, body.take keySize ≠ key) (k8 : ℕ) :
    (r.map magic base).find buf 0 k8 key = none := by
  by_contra hne
  obtain ⟨res, hres⟩ := Option.ne_none_iff_exists'.mp hne
  obtain ⟨off, x, he, rfl, hkey⟩ :=
    find_sound hs h.fits h.indexed (by rw [hlen]; exact h.bodies_whole hwhole) hres
  rw [hlen] at hkey
  exact hmiss x (h.perm.mem_iff.mp (of_mem_zip he).2) hkey

/-- **The offsets the map visits** are those of the entries. -/
theorem Built.offsets_perm (hs : r.Sections magic buf base) :
    ((r.map magic base).forEachOffset buf).Perm (entryOffsets 8 r.bodies) := by
  by_cases hslots : r.slots = []
  · rw [MphfMap.forEachOffset, if_pos (by rw [Region.map, Region.mapHeader, hslots]; rfl),
      h.keyless hslots]
    exact Perm.refl _
  · rw [Region.forEachOffset_eq hs h.fits hslots]
    exact h.indexed

end Built

/-- **The round trip**: wherever the region `finalize` wrote lies, the map over it passes its checks
and serves the bodies that were added. -/
theorem roundTrip_of_finalize (hadd : Addable keySize bodies) (hmagic : magic < 2 ^ 32)
    (h : (ofBodies keySize shortenKey bodies).finalize magic limits = some region)
    (hsize : region.length < 2 ^ 32) (hlies : LiesAt buf base region) (hbase : base % 8 = 0) :
    RoundTrip keySize shortenKey magic bodies buf base region.length := by
  obtain ⟨r, rfl, hr⟩ := finalize_built hadd.nil_notMem hmagic h hsize
  have hs := Region.sections hlies
  have hreset := Region.reset_eq hs hr.fits
  refine ⟨Region.validateMphf_ok hlies hr.fits hr.indexed hbase hr.buckets
    (hr.bodies_whole hadd.whole), ?_, ?_⟩
  · rw [hreset]
    exact Region.mphfEntriesTile_ok hlies hr.fits hr.indexed
  rw [hreset]
  refine ⟨fun body hbody => ?_, fun key k8 hlen hmiss => hr.missing hs hadd.whole hlen hmiss k8, ?_⟩
  · obtain ⟨off, he, hfind⟩ := hr.found hs hadd.whole hbody fun x hx hkey =>
      inj_on_of_nodup_map hadd.distinct hx hbody hkey
    exact ⟨_, hfind, (Region.entry_eq hs hr.fits he).2.slice_eq⟩
  · exact (Region.forEach_perm hlies hr.fits hr.indexed hr.keyless).trans hr.perm

end Finalize

end MphfBuilder

end Zilkworm.Witness
