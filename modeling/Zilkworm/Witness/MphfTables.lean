/-
# A region read back

The bytes that `MphfBuilder::finalize` writes for a region's tables, read by `MphfMap`: the
header's fields, the slots, the sidecar and the entries are those of the tables.  A region
whose offsets are those of its entries, each once, passes `validate_mphf` and
`mphf_entries_tile`, and `for_each` visits its bodies (`Region.Indexed`).
-/
import Zilkworm.Lib.Layout
import Zilkworm.Lib.Table
import Zilkworm.Witness.MphfBuilder
import Zilkworm.Witness.MphfSafety
import Zilkworm.Witness.Binding

namespace Zilkworm.Witness

open List Lib

/-! ## Sizes -/

@[simp] theorem entryBytes_length (body : Bytes) : (entryBytes body).length = entrySize body.length := by
  have := le_align8 (8 + body.length)
  simp only [entryBytes, length_append, length_replicate, toLe_length, entrySize]
  omega

theorem entries_length (bodies : List Bytes) :
    (bodies.flatMap entryBytes).length = (bodies.map fun body => entrySize body.length).sum := by
  simp [length_flatMap]

@[simp] theorem entryOffsets_length (cur : ℕ) (bodies : List Bytes) :
    (entryOffsets cur bodies).length = bodies.length := by
  induction bodies generalizing cur with
  | nil => rfl
  | cons body bodies ih => simp [entryOffsets, ih]

/-- Entries start at multiples of eight and end inside the section. -/
theorem entryOffsets_bounds {cur off : ℕ} {body : Bytes} {bodies : List Bytes} (hc : cur % 8 = 0)
    (h : (off, body) ∈ (entryOffsets cur bodies).zip bodies) :
    off % 8 = 0 ∧ cur ≤ off ∧
    off + entrySize body.length ≤ cur + (bodies.map fun body => entrySize body.length).sum := by
  induction bodies generalizing cur with
  | nil => cases h
  | cons x bodies ih =>
    have hx : entrySize x.length % 8 = 0 := by unfold entrySize align8; omega
    simp only [map_cons, sum_cons]
    rcases mem_cons.mp h with heq | h
    · obtain ⟨rfl, rfl⟩ := Prod.mk.inj heq
      omega
    · have := ih (by omega) h
      omega

/-- Every offset is that of an entry. -/
theorem mem_entryOffsets {cur off : ℕ} {bodies : List Bytes} (h : off ∈ entryOffsets cur bodies) :
    ∃ body ∈ bodies, (off, body) ∈ (entryOffsets cur bodies).zip bodies := by
  have hmap : ((entryOffsets cur bodies).zip bodies).map Prod.fst = entryOffsets cur bodies :=
    map_fst_zip (by simp)
  rw [← hmap] at h
  obtain ⟨⟨o, body⟩, hmem, rfl⟩ := mem_map.mp h
  exact ⟨body, (of_mem_zip hmem).2, hmem⟩

/-- Every body has an offset. -/
theorem exists_entryOffset (cur : ℕ) {body : Bytes} {bodies : List Bytes} (h : body ∈ bodies) :
    ∃ off, (off, body) ∈ (entryOffsets cur bodies).zip bodies := by
  have hmap : ((entryOffsets cur bodies).zip bodies).map Prod.snd = bodies := map_snd_zip (by simp)
  rw [← hmap] at h
  obtain ⟨⟨off, x⟩, hmem, rfl⟩ := mem_map.mp h
  exact ⟨off, hmap ▸ hmem⟩

theorem entryOffsets_ge {cur off : ℕ} {bodies : List Bytes} (h : off ∈ entryOffsets cur bodies) :
    cur ≤ off := by
  induction bodies generalizing cur with
  | nil => cases h
  | cons x bodies ih =>
    rcases mem_cons.mp h with rfl | h
    · exact le_rfl
    · have := ih h
      omega

theorem entryOffsets_sorted (cur : ℕ) (bodies : List Bytes) :
    (entryOffsets cur bodies).Pairwise (· < ·) := by
  induction bodies generalizing cur with
  | nil => exact Pairwise.nil
  | cons x bodies ih =>
    refine pairwise_cons.mpr ⟨fun off hoff => ?_, ih _⟩
    have := entryOffsets_ge hoff
    have := le_align8 (8 + x.length)
    unfold entrySize at *
    omega

/-- The offsets tile the section they were made for. -/
theorem tilesFrom_entryOffsets {len : ℕ → ℕ} {cur : ℕ} {bodies : List Bytes}
    (hlen : ∀ e ∈ (entryOffsets cur bodies).zip bodies, len e.1 = e.2.length)
    (hsize : ∀ body ∈ bodies, body.length + 15 < 2 ^ 32) :
    tilesFrom len cur (entryOffsets cur bodies) =
      some (cur + (bodies.map fun body => entrySize body.length).sum) := by
  induction bodies generalizing cur with
  | nil => rfl
  | cons x bodies ih =>
    have hx : len cur = x.length := hlen _ mem_cons_self
    have hs := hsize x mem_cons_self
    have hstep : mphfAlign8 ((8 + len cur) % 2 ^ 32) = entrySize x.length := by
      rw [hx, mphfAlign8, entrySize, align8]
      omega
    simp only [entryOffsets, tilesFrom, ne_eq, not_true_eq_false, if_false, hstep, map_cons, sum_cons]
    rw [ih (fun e he => hlen e (mem_cons_of_mem _ he)) fun body hb => hsize body (mem_cons_of_mem x hb)]
    rw [Nat.add_assoc]

/-- The entries of a section lie at their offsets. -/
theorem liesAt_entry {b : Bytes} {p cur off : ℕ} {body : Bytes} {bodies : List Bytes}
    (h : LiesAt b (p + cur) (bodies.flatMap entryBytes))
    (he : (off, body) ∈ (entryOffsets cur bodies).zip bodies) :
    LiesAt b (p + off) (entryBytes body) := by
  induction bodies generalizing cur with
  | nil => cases he
  | cons x bodies ih =>
    obtain ⟨hx, hl⟩ := liesAt_append.mp h
    rcases mem_cons.mp he with heq | he
    · obtain ⟨rfl, rfl⟩ := Prod.mk.inj heq
      exact hx
    · rw [entryBytes_length, Nat.add_assoc] at hl
      exact ih hl he

namespace Region

variable (r : Region) (magic : ℕ)

theorem header_length : (r.header magic).length = mphfHeaderSize := by
  simp [header, mphfHeaderSize]

theorem dataSection_length : (dataSection r.bodies).length = r.dataSize := by
  rw [dataSection, length_append, length_replicate, entries_length, dataSize]

theorem bytes_length : (r.bytes magic).length = r.dataOffset + r.dataSize := by
  have hdata : align8 r.dataSize = r.dataSize := by
    have : ∀ bodies : List Bytes, (bodies.map fun body => entrySize body.length).sum % 8 = 0 :=
      fun bodies => by
      induction bodies with
      | nil => rfl
      | cons x bodies ih =>
        have hx : entrySize x.length % 8 = 0 := by unfold entrySize align8; omega
        simp only [map_cons, sum_cons]
        omega
    have := this r.bodies
    unfold dataSize align8
    omega
  simp only [bytes, length_append, padded8_length, header_length, dataSection_length, hdata,
    flatMap_length (w := 8) (fun f : UInt64 => toLe_length 8 f.toNat),
    flatMap_length (w := 4) (fun s => toLe_length 4 s),
    flatMap_length (w := 16) (f := fun e : UInt64 × ℕ => toLe 8 e.1.toNat ++ toLe 8 e.2) (by simp),
    dataOffset, collisionsOffset, slotOffsetsOffset, mphfCollisionSize]

/-- The sections of a region that lies in a buffer. -/
structure Sections (b : Bytes) (base : ℕ) : Prop where
  header : LiesAt b base (r.header magic)
  disp : LiesAt b (base + mphfHeaderSize) (r.disp.flatMap fun f => toLe 8 f.toNat)
  slots : LiesAt b (base + r.slotOffsetsOffset) (r.slots.flatMap (toLe 4))
  collisions : LiesAt b (base + r.collisionsOffset)
    (r.collisions.flatMap fun e => toLe 8 e.1.toNat ++ toLe 8 e.2)
  data : LiesAt b (base + r.dataOffset + 8) (r.bodies.flatMap entryBytes)

variable {r magic} {b : Bytes} {base : ℕ}

theorem sections (h : LiesAt b base (r.bytes magic)) : r.Sections magic b base := by
  obtain ⟨h, hdata⟩ := liesAt_append.mp h
  obtain ⟨h, hcoll⟩ := liesAt_append.mp h
  obtain ⟨h, hslots⟩ := liesAt_append.mp h
  obtain ⟨hhdr, hdisp⟩ := liesAt_append.mp h
  simp only [length_append, padded8_length, header_length,
    flatMap_length (w := 8) (fun f : UInt64 => toLe_length 8 f.toNat),
    flatMap_length (w := 4) (fun s => toLe_length 4 s),
    flatMap_length (w := 16) (f := fun e : UInt64 × ℕ => toLe 8 e.1.toNat ++ toLe 8 e.2) (by simp)]
    at hdata hcoll hslots hdisp
  refine ⟨hhdr, (liesAt_append.mp hdisp).1, ?_, ?_, ?_⟩
  · exact (liesAt_append.mp hslots).1
  · exact (liesAt_append.mp hcoll).1
  · have := (liesAt_append.mp (liesAt_append.mp hdata).1).2
    rwa [length_replicate] at this

/-! ## What the map reads -/

/-- The numbers of the header and the tables fit their words. -/
structure Fits (r : Region) (magic : ℕ) : Prop where
  word : magic < 2 ^ 32
  seed : r.seedTry < 2 ^ 64
  size : (r.bytes magic).length < 2 ^ 32
  slots : ∀ s ∈ r.slots, s < 2 ^ 32
  collisions : ∀ e ∈ r.collisions, e.2 < 2 ^ 32

theorem Fits.dataEnd (hf : r.Fits magic) : r.dataOffset + r.dataSize < 2 ^ 32 :=
  bytes_length r magic ▸ hf.size

/-- The tables come one behind the other. -/
theorem offsets_le (r : Region) : mphfHeaderSize + 8 * r.disp.length ≤ r.slotOffsetsOffset ∧
    r.slotOffsetsOffset + 4 * r.slots.length ≤ r.collisionsOffset ∧
    r.collisionsOffset + mphfCollisionSize * r.collisions.length ≤ r.dataOffset ∧
    r.slotOffsetsOffset % 8 = 0 ∧ r.collisionsOffset % 8 = 0 ∧ r.dataOffset % 8 = 0 := by
  simp only [dataOffset, collisionsOffset, slotOffsetsOffset, mphfHeaderSize]
  unfold align8 at *
  omega

/-- The header of the region's map. -/
def mapHeader (r : Region) (magic : ℕ) : MphfMapHeader where
  magic := magic
  version := kMphfMapVersion
  nKeys := r.slots.length
  nBuckets := r.disp.length
  seedFactor := (seedFactorOf r.seedTry).toNat
  collisionsOffset := r.collisionsOffset
  collisionsSize := mphfCollisionSize * r.collisions.length
  displacementOffset := mphfHeaderSize
  slotOffsetsOffset := r.slotOffsetsOffset
  dataOffset := r.dataOffset
  dataSize := r.dataSize

/-- The map over the region. -/
def map (r : Region) (magic base : ℕ) : MphfMap := ⟨base, r.mapHeader magic⟩

theorem displacement_eq (hs : r.Sections magic b base) {i : ℕ} {f : UInt64} (hi : r.disp[i]? = some f) :
    u64At b (base + mphfHeaderSize + 8 * i) = f.toNat :=
  (hs.disp.row (fun f : UInt64 => toLe_length 8 f.toNat) hi).u64At_eq (UInt64.toNat_lt f)

theorem nCollisions_eq (r : Region) (magic base : ℕ) :
    (r.map magic base).nCollisions = r.collisions.length :=
  Nat.mul_div_cancel_left _ (by decide)

section Reading

variable (hs : r.Sections magic b base) (hf : r.Fits magic)

include hs hf

theorem read_header : MphfMapHeader.read b base = r.mapHeader magic := by
  have hsize := hf.dataEnd
  obtain ⟨h1, h2, h3, -⟩ := r.offsets_le
  have hh := hs.header
  obtain ⟨hh, hwords⟩ := liesAt_append.mp hh
  obtain ⟨hcounts, hseed⟩ := liesAt_append.mp hh
  have hcount {i n : ℕ} (hi : _ = some n) (hn : n < 2 ^ 32) :=
    (hcounts.row (toLe_length 4) (i := i) hi).u32At_eq hn
  have hword {i n : ℕ} (hi : _ = some n) (hn : n < 2 ^ 32) :=
    (hwords.row (toLe_length 4) (i := i) hi).u32At_eq hn
  have hfactor := (hseed.row (toLe_length 8) (i := 1) rfl).u64At_eq (UInt64.toNat_lt _)
  rw [MphfMapHeader.read, mapHeader]
  congr 1
  · exact hcount (i := 0) rfl hf.word
  · exact hcount (i := 1) rfl (by decide)
  · exact hcount (i := 2) rfl (by omega)
  · exact hcount (i := 3) rfl (by omega)
  · exact hword (i := 0) rfl (by omega)
  · exact hword (i := 1) rfl (by omega)
  · exact hword (i := 2) rfl (by decide)
  · exact hword (i := 3) rfl (by omega)
  · exact hword (i := 4) rfl (by omega)
  · exact hword (i := 5) rfl (by omega)

theorem reset_eq : MphfMap.reset b base = r.map magic base := by
  rw [MphfMap.reset, read_header hs hf, map]

theorem slotOffset_eq {i s : ℕ} (hi : r.slots[i]? = some s) :
    (r.map magic base).slotOffset b i = s :=
  (hs.slots.row (toLe_length 4) hi).u32At_eq (hf.slots s (mem_of_getElem? hi))

theorem collisions_eq :
    (r.map magic base).collisions b = r.collisions.map fun e => (e.1.toNat, e.2) := by
  rw [MphfMap.collisions, nCollisions_eq]
  refine ext_getElem? fun i => ?_
  by_cases hi : i < r.collisions.length
  · obtain ⟨e, he⟩ : ∃ e, r.collisions[i]? = some e := ⟨_, getElem?_eq_getElem hi⟩
    obtain ⟨h1, h2⟩ := liesAt_append.mp (hs.collisions.row (w := 16) (by simp) he)
    rw [getElem?_map, getElem?_map, getElem?_range hi, he, Option.map_some, Option.map_some]
    exact congrArg some (Prod.ext (h1.u64At_eq (UInt64.toNat_lt _))
      (h2.u64At_eq ((hf.collisions e (mem_of_getElem? he)).trans (by decide))))
  · rw [getElem?_eq_none (by simpa using hi), getElem?_eq_none (by simpa using hi)]

/-- The entry at an offset of the section. -/
theorem entry_eq {off : ℕ} {body : Bytes}
    (he : (off, body) ∈ (entryOffsets 8 r.bodies).zip r.bodies) :
    (r.map magic base).entryLen b off = body.length ∧
    LiesAt b ((r.map magic base).data + off + 8) body := by
  have hb := (entryOffsets_bounds (by decide) he).2.2
  have hsize := hf.dataEnd
  have hentry := le_align8 (8 + body.length)
  rw [← dataSize.eq_1] at hb
  obtain ⟨h, -⟩ := liesAt_append.mp (liesAt_entry hs.data he)
  obtain ⟨hlen, hbody⟩ := liesAt_append.mp h
  refine ⟨hlen.u64At_eq ?_, hbody⟩
  unfold entrySize at hb
  omega

/-! ## A region that indexes its entries -/

/-- The offsets in the tables are those of the entries, each once. -/
def Indexed (r : Region) : Prop :=
  (r.slots.filter (· ≠ 0) ++ r.collisions.map Prod.snd).Perm (entryOffsets 8 r.bodies)

theorem forEachOffset_eq (hn : r.slots ≠ []) :
    (r.map magic base).forEachOffset b = r.slots.filter (· ≠ 0) ++ r.collisions.map Prod.snd := by
  have hslots : (range r.slots.length).map ((r.map magic base).slotOffset b) = r.slots :=
    ext_getElem? fun i => by
      by_cases hi : i < r.slots.length
      · rw [getElem?_map, getElem?_range hi, Option.map_some, getElem?_eq_getElem hi,
          slotOffset_eq hs hf (getElem?_eq_getElem hi)]
      · rw [getElem?_eq_none (by simpa using hi), getElem?_eq_none (by simpa using hi)]
  have hn : ¬ (r.map magic base).hdr.nKeys = 0 := fun h => hn (length_eq_zero_iff.mp h)
  rw [MphfMap.forEachOffset, if_neg hn, collisions_eq hs hf, map_map,
    show (r.map magic base).hdr.nKeys = r.slots.length from rfl, hslots]
  rfl

/-- What `validate_mphf` asks of an entry. -/
theorem entryWithinData_ok {keySize : ℕ}
    (hkey : ∀ body ∈ r.bodies, keySize ≤ body.length) {off : ℕ} (ho : off ∈ entryOffsets 8 r.bodies) :
    entryWithinData b (r.map magic base) keySize 0 off = .ok () := by
  obtain ⟨body, hbody, he⟩ := mem_entryOffsets ho
  obtain ⟨h8, -, hend⟩ := entryOffsets_bounds (by decide) he
  have hlen := (entry_eq hs hf he).1
  have hk := hkey body hbody
  have hentry := le_align8 (8 + body.length)
  have hdata : (r.map magic base).hdr.dataSize =
      8 + (r.bodies.map fun body => entrySize body.length).sum := rfl
  unfold entrySize at hend hdata
  simp only [entryWithinData, hlen, hdata, bind_eq_ok, rejectIf_eq_ok]
  exact ⟨(), by omega, (), by omega, (), by omega, by omega⟩

end Reading

/-- The tables and the data section are where `validate_mphf` wants them. -/
theorem validateSections_ok (r : Region) (magic : ℕ) (hd : r.disp ≠ []) :
    validateSections (r.mapHeader magic) (r.bytes magic).length = .ok () := by
  have hlen := r.bytes_length magic
  obtain ⟨h1, h2, h3, h4, h5, h6⟩ := r.offsets_le
  have hdisp : r.disp.length ≠ 0 := fun h => hd (length_eq_zero_iff.mp h)
  simp only [validateSections, bind_eq_ok, rejectIf_eq_ok]
  simp only [mapHeader, boundsWithinRegion, mphfHeaderSize, mphfCollisionSize] at *
  exact ⟨(), by decide, (), hdisp, (), by omega, (), by omega, (), by omega, (), by omega, (), by omega,
    (), by omega, (), by omega, (), by omega, by omega⟩

variable (h : LiesAt b base (r.bytes magic)) (hf : r.Fits magic) (hi : r.Indexed)

include h hf hi

/-- **The region passes the check.** -/
theorem validateMphf_ok
    (hbase : base % 8 = 0) (hd : r.disp ≠ []) {keySize : ℕ}
    (hkey : ∀ body ∈ r.bodies, keySize ≤ body.length) :
    validateMphf keySize 0 b base (r.bytes magic).length magic = .ok () := by
  have hs := sections h
  have hlen := r.bytes_length magic
  obtain ⟨h1, h2, h3, -⟩ := r.offsets_le
  have hdata : 8 ≤ r.dataSize := by unfold dataSize; omega
  have hfit := h.length_le (by rw [← length_pos_iff]; omega)
  unfold validateMphf
  rw [if_neg (by omega)]
  simp only [reset_eq hs hf, bind_eq_ok, rejectIf_eq_ok]
  refine ⟨(), by omega, (), by omega, (), by omega, (), fun h => h.2 rfl, (), fun h => h rfl, ?_⟩
  split_ifs with hn
  · rfl
  · have hslots : r.slots ≠ [] := fun h => hn (by rw [map, mapHeader, h]; rfl)
    refine bind_eq_ok.mpr ⟨(), r.validateSections_ok magic hd, forM_eq_ok.mpr fun off hoff => ?_⟩
    rw [forEachOffset_eq hs hf hslots] at hoff
    exact entryWithinData_ok hs hf hkey (hi.mem_iff.mp hoff)

/-- **Its entries tile the data section.** -/
theorem mphfEntriesTile_ok :
    mphfEntriesTile b (some (r.map magic base)) = true := by
  have hs := sections h
  have hsize := hf.dataEnd
  have hsmall : ∀ off body, (off, body) ∈ (entryOffsets 8 r.bodies).zip r.bodies →
      off + (8 + body.length) ≤ r.dataSize := fun off body he => by
    have hb := (entryOffsets_bounds (by decide) he).2.2
    have := le_align8 (8 + body.length)
    unfold entrySize at hb
    unfold dataSize entrySize
    omega
  obtain ⟨h1, h2, h3, -⟩ := r.offsets_le
  simp only [mphfEntriesTile]
  split_ifs with hn
  · rfl
  · have hslots : r.slots ≠ [] := fun h => hn (by rw [map, mapHeader, h]; rfl)
    rw [forEachOffset_eq hs hf hslots, decide_eq_true_eq]
    have hmod : (r.slots.filter (· ≠ 0) ++ r.collisions.map Prod.snd).map (· % 2 ^ 32) =
        r.slots.filter (· ≠ 0) ++ r.collisions.map Prod.snd := by
      refine (map_congr_left fun off hoff => ?_).trans (map_id _)
      obtain ⟨body, -, he⟩ := mem_entryOffsets (hi.mem_iff.mp hoff)
      have := hsmall off body he
      exact Nat.mod_eq_of_lt (by omega)
    -- sorted, the offsets are the builder's
    have hsort : (r.slots.filter (· ≠ 0) ++ r.collisions.map Prod.snd).insertionSort (· ≤ ·) =
        entryOffsets 8 r.bodies :=
      ((perm_insertionSort _ _).trans hi).eq_of_pairwise' (pairwise_insertionSort _ _)
        ((entryOffsets_sorted 8 r.bodies).imp Nat.le_of_lt)
    rw [hmod, hsort, tilesFrom_entryOffsets (fun e he => (entry_eq hs hf he).1) fun body hbody => ?_]
    · rfl
    · obtain ⟨off, he⟩ := exists_entryOffset 8 hbody
      have := hsmall off body he
      simp only [mphfHeaderSize] at h1
      omega

/-- **`for_each` visits the bodies**, each once. -/
theorem forEach_perm
    (hn : r.slots = [] → r.bodies = []) :
    (((r.map magic base).forEach b).map fun e => slice b e.1 e.2).Perm r.bodies := by
  have hs := sections h
  by_cases hslots : r.slots = []
  · have hnil : (r.map magic base).forEachOffset b = [] := by
      rw [MphfMap.forEachOffset, if_pos (by rw [map, mapHeader, hslots]; rfl)]
    rw [hn hslots, MphfMap.forEach, hnil]
    exact Perm.refl _
  · rw [MphfMap.forEach, forEachOffset_eq hs hf hslots, map_map]
    refine (hi.map _).trans (Perm.of_eq ?_)
    have hzip : (entryOffsets 8 r.bodies) = ((entryOffsets 8 r.bodies).zip r.bodies).map Prod.fst :=
      (map_fst_zip (by simp)).symm
    conv_lhs => rw [hzip, map_map]
    conv_rhs => rw [← @List.map_snd_zip _ _ (entryOffsets 8 r.bodies) r.bodies (by simp)]
    refine map_congr_left fun e he => ?_
    obtain ⟨hlen, hbody⟩ := @entry_eq _ _ _ _ hs hf e.1 e.2 he
    show slice b ((r.map magic base).data + e.1 + 8) ((r.map magic base).entryLen b e.1) = e.2
    rw [hlen]
    exact hbody.slice_eq

end Region

end Zilkworm.Witness
