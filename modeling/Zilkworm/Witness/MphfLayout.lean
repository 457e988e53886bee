/-
# What `validate_mphf` establishes

The layout of a map that passed the check, as one structure: the tables end before the
data section, the data section ends inside the region, and every entry a reader can reach
lies in it.  A lookup therefore depends on the region only, and writes elsewhere do not
change its answer.
-/
import Zilkworm.Witness.MphfMap

namespace Zilkworm.Witness

open List Lib

variable {key : Bytes}

/-- **Layout of a validated map** with keys of `keySize` bytes at `keyOffset`. -/
structure MphfLayout (keySize keyOffset : ℕ) (b : Bytes) (m : MphfMap) (regionSize : ℕ) : Prop where
  region : m.base + regionSize ≤ b.length
  buckets : 0 < m.hdr.nBuckets
  header : mphfHeaderSize ≤ m.hdr.dataOffset
  displacement : m.hdr.displacementOffset + m.hdr.nBuckets * 8 ≤ m.hdr.dataOffset
  slots : m.hdr.slotOffsetsOffset + m.hdr.nKeys * 4 ≤ m.hdr.dataOffset
  collisions : 0 < m.hdr.collisionsSize →
    m.hdr.collisionsOffset + m.hdr.collisionsSize ≤ m.hdr.dataOffset
  dataEnd : m.hdr.dataOffset + m.hdr.dataSize ≤ regionSize
  entries : ∀ off ∈ m.forEachOffset b,
    off + 8 + m.entryLen b off ≤ m.hdr.dataSize ∧ keyOffset + keySize ≤ m.entryLen b off

/-- **What `validate_mphf` accepts is laid out as `find` assumes.** -/
theorem validateMphf_layout {keySize keyOffset regionOff regionSize magic : ℕ} {b : Bytes}
    (h : validateMphf keySize keyOffset b regionOff regionSize magic = .ok ())
    (hr : regionSize ≠ 0) (hk : (MphfMap.reset b regionOff).hdr.nKeys ≠ 0) :
    MphfLayout keySize keyOffset b (MphfMap.reset b regionOff) regionSize := by
  simp only [validateMphf, hr, if_false, bind_eq_ok, rejectIf_eq_ok, hk, validateSections,
    forM_eq_ok, exists_and_left, exists_const, not_not] at h
  obtain ⟨hb, -, -, -, -, ⟨-, hbk, -, -, -, -, -, -, -, hd, ho⟩, he⟩ := h
  push Not at ho
  refine ⟨?_, by omega, by omega, by omega, by omega, fun hc => ho.2.2.2 hc, ?_, fun off hoff => ?_⟩
  · simp only [MphfMap.reset]; omega
  · exact hd.2.2
  · have hent := he off hoff
    simp only [entryWithinData, bind_eq_ok, rejectIf_eq_ok] at hent
    omega

/-- `fast_mod_u32` of any hash is a position below `n`. -/
theorem fastModU32_lt (x : UInt64) {n : ℕ} (hn : 0 < n) : fastModU32 x n < n := by
  unfold fastModU32
  apply Nat.div_lt_of_lt_mul
  exact Nat.mul_lt_mul_of_pos_right (Nat.mod_lt _ (by decide)) hn

theorem findSome?_map_congr {α β γ : Type} {f g : α → Option β} (k : β → γ) {l : List α}
    (h : ∀ x ∈ l, (f x).map k = (g x).map k) : (l.findSome? f).map k = (l.findSome? g).map k := by
  induction l with
  | nil => rfl
  | cons x xs ih =>
    have hx := h x mem_cons_self
    have ih := ih fun y hy => h y (mem_cons_of_mem x hy)
    rw [findSome?_cons, findSome?_cons]
    cases hf : f x <;> cases hg : g x <;> rw [hf, hg] at hx <;> first | exact ih | exact hx | cases hx

section Congruence

variable {keySize keyOffset regionSize : ℕ} {b b' : Bytes} {m : MphfMap} {rs : List (ℕ × ℕ)}

/-- Writes that keep off the first `size` bytes of the map. -/
def OffRegion (m : MphfMap) (size : ℕ) (rs : List (ℕ × ℕ)) : Prop :=
  ∀ r ∈ rs, Apart m.base size r.1 r.2

theorem OffRegion.apart (h : OffRegion m regionSize rs) {q k : ℕ} (h1 : m.base ≤ q)
    (h2 : q + k ≤ m.base + regionSize) : ∀ r ∈ rs, Apart q k r.1 r.2 := by
  intro r hr
  have := h r hr
  unfold Apart at this ⊢
  omega

theorem nCollisions_mul_le (m : MphfMap) : mphfCollisionSize * m.nCollisions ≤ m.hdr.collisionsSize :=
  Nat.mul_div_le _ _

/-- An occupied slot's entry is one that `for_each` visits. -/
theorem MphfMap.slotOffset_mem {i : ℕ} (hi : i < m.hdr.nKeys) (hn : m.slotOffset b i ≠ 0) :
    m.slotOffset b i ∈ m.forEachOffset b := by
  unfold MphfMap.forEachOffset
  rw [if_neg (by omega)]
  refine mem_append_left _ (mem_filter.mpr ⟨mem_map.mpr ⟨i, mem_range.mpr hi, rfl⟩, ?_⟩)
  simpa using hn

/-- A sidecar entry is one that `for_each` visits. -/
theorem MphfMap.collision_mem {e : ℕ × ℕ} (hk : m.hdr.nKeys ≠ 0) (he : e ∈ m.collisions b) :
    e.2 ∈ m.forEachOffset b := by
  unfold MphfMap.forEachOffset
  rw [if_neg hk]
  exact mem_append_right _ (mem_map.mpr ⟨e, he, rfl⟩)

variable (hl : MphfLayout keySize keyOffset b m regionSize)

include hl

theorem OffRegion.tables
    (h : OffRegion m regionSize rs) : OffRegion m m.hdr.dataOffset rs := by
  intro r hr
  have := h r hr
  have := hl.dataEnd
  unfold Apart at *
  omega

/-- Writes outside the tables leave the slots as they are. -/
theorem MphfLayout.slotOffset_congr
    (hf : Frame rs b b') (ho : OffRegion m m.hdr.dataOffset rs) {i : ℕ} (hi : i < m.hdr.nKeys) :
    m.slotOffset b' i = m.slotOffset b i := by
  have := hl.slots
  exact hf.u32At_eq (ho.apart (by omega) (by omega))

/-- Writes outside the tables leave the sidecar as it is. -/
theorem MphfLayout.collisions_congr
    (hf : Frame rs b b') (ho : OffRegion m m.hdr.dataOffset rs) : m.collisions b' = m.collisions b := by
  refine map_congr_left fun i hi => ?_
  have hi := mem_range.mp hi
  have hn := nCollisions_mul_le m
  simp only [mphfCollisionSize] at hn
  have := hl.collisions (by omega)
  simp only [MphfMap.collision, mphfCollisionSize]
  rw [hf.u64At_eq (ho.apart (by omega) (by omega)), hf.u64At_eq (ho.apart (by omega) (by omega))]

/-- Which entries a walk visits depends on the tables only. -/
theorem MphfLayout.forEachOffset_congr
    (hf : Frame rs b b') (ho : OffRegion m m.hdr.dataOffset rs) :
    m.forEachOffset b' = m.forEachOffset b := by
  unfold MphfMap.forEachOffset
  rw [hl.collisions_congr hf ho,
    map_congr_left fun i hi => hl.slotOffset_congr hf ho (mem_range.mp hi)]

/-- Writes outside the region leave what `find` compares and returns. -/
theorem MphfLayout.bodyIfKey_congr (hf : Frame rs b b') (ho : OffRegion m regionSize rs)
    (hk : key.length = keySize) {off : ℕ} (hoff : off ∈ m.forEachOffset b) :
    m.bodyIfKey b' keyOffset key off = m.bodyIfKey b keyOffset key off := by
  obtain ⟨h1, h2⟩ := hl.entries off hoff
  have := hl.dataEnd
  simp only [MphfMap.bodyIfKey, MphfMap.entryLen]
  rw [hf.slice_eq (ho.apart (by simp only [MphfMap.data]; omega)
      (by simp only [MphfMap.data, MphfMap.entryLen] at *; omega)),
    hf.u64At_eq (ho.apart (by simp only [MphfMap.data]; omega)
      (by simp only [MphfMap.data, MphfMap.entryLen] at *; omega))]

/-- **A lookup depends on the tables and on what it compares**; `k` is what is asked of its result.
-/
theorem MphfLayout.find_map_congr {γ : Type} (hf : Frame rs b b')
    (ho : OffRegion m m.hdr.dataOffset rs) (k : ℕ × ℕ → γ) (hbody : ∀ off ∈ m.forEachOffset b,
      (m.bodyIfKey b' keyOffset key off).map k = (m.bodyIfKey b keyOffset key off).map k) (k8 : ℕ) :
    (m.find b' keyOffset k8 key).map k = (m.find b keyOffset k8 key).map k := by
  unfold MphfMap.find
  split
  · rfl
  case isFalse hkeys =>
    have hpos : 0 < m.hdr.nKeys := Nat.pos_of_ne_zero hkeys
    have hidx : m.indexLookup b' (UInt64.ofNat k8) = m.indexLookup b (UInt64.ofNat k8) := by
      have hbucket := fastModU32_lt (mix64Body (UInt64.ofNat k8 + UInt64.ofNat m.hdr.seedFactor))
        hl.buckets
      have := hl.displacement
      simp only [MphfMap.indexLookup]
      rw [hf.u64At_eq (ho.apart (by omega) (by omega))]
    have hlt : m.indexLookup b (UInt64.ofNat k8) < m.hdr.nKeys := fastModU32_lt _ hpos
    rw [hidx, hl.slotOffset_congr hf ho hlt]
    by_cases hoff : m.slotOffset b (m.indexLookup b (UInt64.ofNat k8)) ≠ 0
    · simp only [if_pos hoff]
      exact hbody _ (MphfMap.slotOffset_mem hlt hoff)
    · simp only [if_neg hoff]
      split
      · unfold MphfMap.resolveCollision
        rw [hl.collisions_congr hf ho]
        refine findSome?_map_congr k fun e he => hbody _ (MphfMap.collision_mem hkeys ?_)
        exact mem_of_mem_drop (( takeWhile_prefix _).subset he)
      · rfl

/-- A lookup depends on the map's region only. -/
theorem MphfLayout.find_congr (hf : Frame rs b b') (ho : OffRegion m regionSize rs)
    (hk : key.length = keySize) (k8 : ℕ) :
    m.find b' keyOffset k8 key = m.find b keyOffset k8 key := by
  have := hl.find_map_congr hf (ho.tables hl) id
    (fun off hoff => congrArg (Option.map id) (hl.bodyIfKey_congr hf ho hk hoff)) k8
  rwa [Option.map_id_fun, id_eq, id_eq] at this

end Congruence

end Zilkworm.Witness
