/-
# Lookups after the one check

`find`, `for_each` and `for_each_offset` of an `MphfMap` read without checking, on the strength
of one `validate_mphf` before (`core/common_zz/mphf_map.hpp`).  Here each reader keeps the places
it reads: a displacement, a slot offset, the sidecar's entries that `std::lower_bound` probes and
the loop behind it compares, an entry's key and its length word.

All of them lie in the region, whatever the tables hold, and stay there: the data section, behind
the header and the tables, is the only part written afterwards, and as long as the length words of
the entries keep their values every entry a reader can reach lies where the check saw it.
-/
import Zilkworm.Witness.MphfLayout

namespace Zilkworm.Witness

open List Lib

variable {i off : ℕ}

/-- A value with the places read for it, as offset and number of bytes. -/
structure Traced (α : Type) where
  value : α
  reads : List (ℕ × ℕ)

/-- The same value with reads made before. -/
def Traced.after {α : Type} (t : Traced α) (reads : List (ℕ × ℕ)) : Traced α :=
  ⟨t.value, reads ++ t.reads⟩

theorem Traced.after_value {α : Type} (t : Traced α) (reads : List (ℕ × ℕ)) :
    (t.after reads).value = t.value := rfl

theorem Traced.after_reads {α : Type} (t : Traced α) (reads : List (ℕ × ℕ)) :
    (t.after reads).reads = reads ++ t.reads := rfl

/-- `std::lower_bound` with the indices it probes. -/
def lowerBoundT (below : ℕ → Bool) : (fuel first len : ℕ) → Traced ℕ
  | 0, first, _ => ⟨first, []⟩
  | fuel + 1, first, len =>
    if len = 0 then ⟨first, []⟩
    else
      let mid := first + len / 2
      let rest := if below mid then lowerBoundT below fuel (mid + 1) (len - len / 2 - 1)
        else lowerBoundT below fuel first (len / 2)
      ⟨rest.value, (mid, 0) :: rest.reads⟩

namespace MphfMap

variable (b : Bytes) (m : MphfMap)

/-- Where the sidecar's entry `i` lies: its key, and its offset eight bytes on. -/
def collisionPlace (i : ℕ) : ℕ := m.base + m.hdr.collisionsOffset + mphfCollisionSize * i

/-- Where the displacement of a key's bucket lies. -/
def displacementPlace (key : UInt64) : ℕ :=
  m.base + m.hdr.displacementOffset +
    8 * fastModU32 (mix64Body (key + UInt64.ofNat m.hdr.seedFactor)) m.hdr.nBuckets

/-- `bodyIfKey` with its reads: the key's bytes, and the length word of an entry that has it. -/
def bodyIfKeyT (keyOffset : ℕ) (key : Bytes) (off : ℕ) : Traced (Option (ℕ × ℕ)) :=
  let body := m.data + off + 8
  if slice b (body + keyOffset) key.length = key then
    ⟨some (body, m.entryLen b off), [(body + keyOffset, key.length), (m.data + off, 8)]⟩
  else ⟨none, [(body + keyOffset, key.length)]⟩

/-- The loop of `resolve_collision` from entry `i` on, `n` entries before the sidecar's end. -/
def walkCollisionsT (keyOffset k8 : ℕ) (key : Bytes) : (n i : ℕ) → Traced (Option (ℕ × ℕ))
  | 0, _ => ⟨none, []⟩
  | n + 1, i =>
    if (m.collision b i).1 = k8 then
      let hit := m.bodyIfKeyT b keyOffset key (m.collision b i).2
      let here := (m.collisionPlace i, 8) :: (m.collisionPlace i + 8, 8) :: hit.reads
      match hit.value with
      | some r => ⟨some r, here⟩
      | none =>
        let rest := walkCollisionsT keyOffset k8 key n (i + 1)
        ⟨rest.value, here ++ rest.reads⟩
    else ⟨none, [(m.collisionPlace i, 8)]⟩

/-- `resolve_collision` with its reads. -/
def resolveCollisionT (keyOffset k8 : ℕ) (key : Bytes) : Traced (Option (ℕ × ℕ)) :=
  let start := lowerBoundT (fun i => (m.collision b i).1 < k8) m.nCollisions 0 m.nCollisions
  let walk := m.walkCollisionsT b keyOffset k8 key (m.nCollisions - start.value) start.value
  ⟨walk.value, start.reads.map (fun p => (m.collisionPlace p.1, 8)) ++ walk.reads⟩

/-- `find` behind the slot's offset, with its reads. -/
def findAtT (keyOffset k8 : ℕ) (key : Bytes) (off : ℕ) : Traced (Option (ℕ × ℕ)) :=
  if off ≠ 0 then m.bodyIfKeyT b keyOffset key off
  else if m.nCollisions > 0 then m.resolveCollisionT b keyOffset k8 key
  else ⟨none, []⟩

/-- `find` with its reads. -/
def findT (keyOffset k8 : ℕ) (key : Bytes) : Traced (Option (ℕ × ℕ)) :=
  if m.hdr.nKeys = 0 then ⟨none, []⟩
  else
    (m.findAtT b keyOffset k8 key (m.slotOffset b (m.indexLookup b (UInt64.ofNat k8)))).after
      [(m.displacementPlace (UInt64.ofNat k8), 8),
        (m.base + m.hdr.slotOffsetsOffset + 4 * m.indexLookup b (UInt64.ofNat k8), 4)]

/-- The reads of `for_each_offset`: every slot, and every sidecar entry's offset. -/
def forEachOffsetReads : List (ℕ × ℕ) :=
  if m.hdr.nKeys = 0 then []
  else (range m.hdr.nKeys).map (fun i => (m.base + m.hdr.slotOffsetsOffset + 4 * i, 4)) ++
    (range m.nCollisions).map fun i => (m.collisionPlace i + 8, 8)

/-- `for_each`: the body of every entry, as its place and its length. -/
def forEach : List (ℕ × ℕ) := (m.forEachOffset b).map fun off => (m.data + off + 8, m.entryLen b off)

/-- The reads of `for_each`: those of `for_each_offset`, and every entry's length word. -/
def forEachReads : List (ℕ × ℕ) :=
  m.forEachOffsetReads ++ (m.forEachOffset b).map fun off => (m.data + off, 8)

end MphfMap

/-! ## The traces are the readers' -/

theorem lowerBoundT_value (below : ℕ → Bool) (fuel first len : ℕ) :
    (lowerBoundT below fuel first len).value = lowerBound below fuel first len := by
  induction fuel generalizing first len with
  | zero => rfl
  | succ fuel ih =>
    unfold lowerBoundT lowerBound
    split
    · rfl
    · dsimp only
      split <;> exact ih _ _

/-- The search probes inside its range, and ends in it or at its end. -/
theorem lowerBoundT_inside (below : ℕ → Bool) (fuel first len : ℕ) :
    (lowerBoundT below fuel first len).value ≤ first + len ∧
    ∀ p ∈ (lowerBoundT below fuel first len).reads, p.1 < first + len := by
  induction fuel generalizing first len with
  | zero => exact ⟨Nat.le_add_right _ _, by simp [lowerBoundT]⟩
  | succ fuel ih =>
    unfold lowerBoundT
    split
    · exact ⟨Nat.le_add_right _ _, by simp⟩
    have hrest : ∀ {first' len' : ℕ}, first' + len' ≤ first + len →
        (lowerBoundT below fuel first' len').value ≤ first + len ∧
        ∀ p ∈ (lowerBoundT below fuel first' len').reads, p.1 < first + len := by
      intro first' len' hle
      obtain ⟨hv, hr⟩ := ih first' len'
      exact ⟨hv.trans hle, fun p hp => (hr p hp).trans_le hle⟩
    have hstep : (if below (first + len / 2) then
          lowerBoundT below fuel (first + len / 2 + 1) (len - len / 2 - 1)
        else lowerBoundT below fuel first (len / 2)).value ≤ first + len ∧
        ∀ p ∈ (if below (first + len / 2) then
          lowerBoundT below fuel (first + len / 2 + 1) (len - len / 2 - 1)
        else lowerBoundT below fuel first (len / 2)).reads, p.1 < first + len := by
      split
      · exact hrest (by omega)
      · exact hrest (by omega)
    refine ⟨hstep.1, fun p hp => ?_⟩
    rcases mem_cons.mp hp with rfl | hp
    · show first + len / 2 < first + len
      omega
    · exact hstep.2 p hp

/-- The search depends on the elements of its range only. -/
theorem lowerBound_congr {below below' : ℕ → Bool} {fuel first len : ℕ}
    (h : ∀ i, i < first + len → below i = below' i) :
    lowerBound below fuel first len = lowerBound below' fuel first len := by
  induction fuel generalizing first len with
  | zero => rfl
  | succ fuel ih =>
    unfold lowerBound
    split
    · rfl
    rw [h (first + len / 2) (by omega)]
    split
    · exact ih fun i hi => h i (by omega)
    · exact ih fun i hi => h i (by omega)

section Values

variable {b : Bytes} {m : MphfMap} {keyOffset k8 : ℕ} {key : Bytes}

theorem MphfMap.bodyIfKeyT_value (off : ℕ) :
    (m.bodyIfKeyT b keyOffset key off).value = m.bodyIfKey b keyOffset key off := by
  unfold MphfMap.bodyIfKeyT MphfMap.bodyIfKey
  dsimp only
  split <;> rfl

theorem MphfMap.collisions_length : (m.collisions b).length = m.nCollisions := by
  simp [MphfMap.collisions]

theorem MphfMap.collisions_getElem? (hi : i < m.nCollisions) :
    (m.collisions b)[i]? = some (m.collision b i) := by
  simp [MphfMap.collisions, hi]

theorem MphfMap.collisions_drop (hi : i < m.nCollisions) :
    (m.collisions b).drop i = m.collision b i :: (m.collisions b).drop (i + 1) := by
  have hlt : i < (m.collisions b).length := by rwa [MphfMap.collisions_length]
  have hget := getElem?_eq_getElem hlt
  rw [MphfMap.collisions_getElem? hi] at hget
  rw [drop_eq_getElem_cons hlt, ← Option.some.inj hget]

/-- The loop goes through the sidecar from its entry on, while the short key is there. -/
theorem MphfMap.walkCollisionsT_value {n : ℕ} (hn : i + n = m.nCollisions) :
    (m.walkCollisionsT b keyOffset k8 key n i).value =
      (((m.collisions b).drop i).takeWhile (·.1 = k8)).findSome? fun e =>
        m.bodyIfKey b keyOffset key e.2 := by
  induction n generalizing i with
  | zero =>
    rw [drop_eq_nil_of_le (by rw [MphfMap.collisions_length]; omega)]
    rfl
  | succ n ih =>
    rw [MphfMap.collisions_drop (by omega)]
    unfold MphfMap.walkCollisionsT
    by_cases hk : (m.collision b i).1 = k8
    · rw [if_pos hk, takeWhile_cons_of_pos (by simpa using hk), findSome?_cons,
        ← MphfMap.bodyIfKeyT_value]
      dsimp only
      cases (m.bodyIfKeyT b keyOffset key (m.collision b i).2).value with
      | some r => rfl
      | none => exact ih (by omega)
    · rw [if_neg hk, takeWhile_cons_of_neg (by simpa using hk)]
      rfl

theorem MphfMap.resolveCollisionT_value :
    (m.resolveCollisionT b keyOffset k8 key).value = m.resolveCollision b keyOffset k8 key := by
  unfold MphfMap.resolveCollisionT MphfMap.resolveCollision
  dsimp only
  have hstart :
      lowerBound (fun i => ((m.collisions b).getD i (0, 0)).1 < k8) m.nCollisions 0 m.nCollisions =
      (lowerBoundT (fun i => (m.collision b i).1 < k8) m.nCollisions 0 m.nCollisions).value := by
    rw [lowerBoundT_value]
    refine lowerBound_congr fun i hi => ?_
    rw [getD_eq_getElem?_getD, MphfMap.collisions_getElem? (by omega)]
    rfl
  have hle := (lowerBoundT_inside (fun i => (m.collision b i).1 < k8) m.nCollisions 0 m.nCollisions).1
  rw [hstart]
  exact MphfMap.walkCollisionsT_value (by omega)

/-- **The traced lookup is the lookup.** -/
theorem MphfMap.findT_value : (m.findT b keyOffset k8 key).value = m.find b keyOffset k8 key := by
  unfold MphfMap.findT MphfMap.find
  generalize m.indexLookup b (UInt64.ofNat k8) = idx
  by_cases hk : m.hdr.nKeys = 0
  · rw [if_pos hk, if_pos hk]
  rw [if_neg hk, if_neg hk, Traced.after_value]
  generalize m.slotOffset b idx = off
  unfold MphfMap.findAtT
  by_cases hoff : off ≠ 0
  · rw [if_pos hoff, if_pos hoff]
    exact MphfMap.bodyIfKeyT_value _
  rw [if_neg hoff, if_neg hoff]
  by_cases hc : m.nCollisions > 0
  · rw [if_pos hc, if_pos hc]
    exact MphfMap.resolveCollisionT_value
  · rw [if_neg hc, if_neg hc]

end Values

/-! ## Every read is in the region -/

/-- A place inside the first `size` bytes of a map. -/
def MphfMap.Holds (m : MphfMap) (size : ℕ) (r : ℕ × ℕ) : Prop :=
  m.base ≤ r.1 ∧ r.1 + r.2 ≤ m.base + size

section Safety

variable {keySize keyOffset regionSize : ℕ} {b : Bytes} {m : MphfMap}

variable (hl : MphfLayout keySize keyOffset b m regionSize)

include hl

/-- A sidecar entry lies among the tables. -/
theorem MphfLayout.collisionPlace_holds (hi : i < m.nCollisions) : m.base ≤ m.collisionPlace i ∧
      m.collisionPlace i + mphfCollisionSize ≤ m.base + regionSize := by
  have hn := nCollisions_mul_le m
  have hstep : mphfCollisionSize * (i + 1) ≤ mphfCollisionSize * m.nCollisions :=
    Nat.mul_le_mul_left _ hi
  have hpos : 0 < m.hdr.collisionsSize := by
    simp only [mphfCollisionSize] at hn hstep
    omega
  have hc := hl.collisions hpos
  have hd := hl.dataEnd
  unfold MphfMap.collisionPlace
  rw [Nat.mul_succ] at hstep
  omega

/-- The key and the length word of an entry lie in the data section. -/
theorem MphfLayout.bodyIfKeyT_holds {key : Bytes} (hk : key.length = keySize)
    (hoff : off ∈ m.forEachOffset b) :
    ∀ r ∈ (m.bodyIfKeyT b keyOffset key off).reads, m.Holds regionSize r := by
  obtain ⟨hbody, hkey⟩ := hl.entries off hoff
  have hd := hl.dataEnd
  have hplace : m.data = m.base + m.hdr.dataOffset := rfl
  have hfst : m.Holds regionSize (m.data + off + 8 + keyOffset, key.length) := by
    constructor <;> dsimp only <;> omega
  have hsnd : m.Holds regionSize (m.data + off, 8) := by
    constructor <;> dsimp only <;> omega
  unfold MphfMap.bodyIfKeyT
  dsimp only
  split
  · simpa using ⟨hfst, hsnd⟩
  · simpa using hfst

theorem MphfLayout.walkCollisionsT_holds (hkeys : m.hdr.nKeys ≠ 0) {key : Bytes}
    (hk : key.length = keySize) {k8 n : ℕ} (hn : i + n = m.nCollisions) :
    ∀ r ∈ (m.walkCollisionsT b keyOffset k8 key n i).reads, m.Holds regionSize r := by
  induction n generalizing i with
  | zero => simp [MphfMap.walkCollisionsT]
  | succ n ih =>
    obtain ⟨hlo, hhi⟩ := hl.collisionPlace_holds (show i < m.nCollisions by omega)
    simp only [mphfCollisionSize] at hhi
    have hkey : m.Holds regionSize (m.collisionPlace i, 8) := by
      constructor <;> dsimp only <;> omega
    have hoffset : m.Holds regionSize (m.collisionPlace i + 8, 8) := by
      constructor <;> dsimp only <;> omega
    have hmem : m.collision b i ∈ m.collisions b :=
      mem_of_getElem? (MphfMap.collisions_getElem? (show i < m.nCollisions by omega))
    have hbody := hl.bodyIfKeyT_holds hk (MphfMap.collision_mem hkeys hmem)
    have hhere : ∀ r ∈ (m.collisionPlace i, 8) :: (m.collisionPlace i + 8, 8) ::
        (m.bodyIfKeyT b keyOffset key (m.collision b i).2).reads, m.Holds regionSize r := by
      simpa using ⟨hkey, hoffset, fun a c h => hbody (a, c) h⟩
    unfold MphfMap.walkCollisionsT
    split
    · dsimp only
      split
      · exact hhere
      · intro r hr
        rcases mem_append.mp hr with hr | hr
        · exact hhere r hr
        · exact ih (by omega) r hr
    · simpa using hkey

/-- **A lookup reads bytes of the region only.** -/
theorem MphfLayout.findT_holds {key : Bytes}
    (hk : key.length = keySize) (k8 : ℕ) :
    ∀ r ∈ (m.findT b keyOffset k8 key).reads, m.Holds regionSize r := by
  unfold MphfMap.findT
  split
  · simp
  rename_i hkeys
  have hidx : m.indexLookup b (UInt64.ofNat k8) < m.hdr.nKeys :=
    fastModU32_lt _ (Nat.pos_of_ne_zero hkeys)
  have hbucket := fastModU32_lt (mix64Body (UInt64.ofNat k8 + UInt64.ofNat m.hdr.seedFactor)) hl.buckets
  have hslots := hl.slots
  have hdisp := hl.displacement
  have hd := hl.dataEnd
  have hdisplacement : m.Holds regionSize (m.displacementPlace (UInt64.ofNat k8), 8) := by
    constructor <;> simp only [MphfMap.displacementPlace] <;> omega
  have hslot : m.Holds regionSize
      (m.base + m.hdr.slotOffsetsOffset + 4 * m.indexLookup b (UInt64.ofNat k8), 4) := by
    constructor <;> dsimp only <;> omega
  have hfound : ∀ r ∈ (m.findAtT b keyOffset k8 key
      (m.slotOffset b (m.indexLookup b (UInt64.ofNat k8)))).reads, m.Holds regionSize r := by
    unfold MphfMap.findAtT
    split
    · rename_i hoff
      exact hl.bodyIfKeyT_holds hk (MphfMap.slotOffset_mem hidx hoff)
    split
    · have hprobe := lowerBoundT_inside (fun i => (m.collision b i).1 < k8) m.nCollisions 0 m.nCollisions
      intro r hr
      rcases mem_append.mp hr with hr | hr
      · obtain ⟨p, hp, rfl⟩ := mem_map.mp hr
        obtain ⟨hlo, hhi⟩ :=
          hl.collisionPlace_holds (show p.1 < m.nCollisions by simpa using hprobe.2 p hp)
        simp only [mphfCollisionSize] at hhi
        constructor <;> dsimp only <;> omega
      · exact hl.walkCollisionsT_holds hkeys hk (by omega) r hr
    · simp
  intro r hr
  rcases mem_append.mp hr with hr | hr
  · rcases mem_cons.mp hr with rfl | hr
    · exact hdisplacement
    · obtain rfl := mem_singleton.mp hr
      exact hslot
  · exact hfound r hr

/-- **A walk reads bytes of the region only.** -/
theorem MphfLayout.forEachReads_holds :
    ∀ r ∈ m.forEachReads b, m.Holds regionSize r := by
  have hslots := hl.slots
  have hd := hl.dataEnd
  intro r hr
  rcases mem_append.mp hr with hr | hr
  · unfold MphfMap.forEachOffsetReads at hr
    split at hr
    · simp at hr
    rcases mem_append.mp hr with hr | hr
    · obtain ⟨i, hi, rfl⟩ := mem_map.mp hr
      have hi := mem_range.mp hi
      constructor <;> dsimp only <;> omega
    · obtain ⟨i, hi, rfl⟩ := mem_map.mp hr
      obtain ⟨hlo, hhi⟩ := hl.collisionPlace_holds (mem_range.mp hi)
      simp only [mphfCollisionSize] at hhi
      constructor <;> dsimp only <;> omega
  · obtain ⟨off, hoff, rfl⟩ := mem_map.mp hr
    obtain ⟨hbody, -⟩ := hl.entries off hoff
    have hplace : m.data = m.base + m.hdr.dataOffset := rfl
    constructor <;> dsimp only <;> omega

end Safety

/-! ## Writes afterwards -/

/-- **Writes into entry bodies**: a run of writes, each inside the body of an entry, that leaves the
length word of every entry as it was. -/
inductive BodyWrites (m : MphfMap) (b : Bytes) : Bytes → Prop where
  | refl : BodyWrites m b b
  | write {b' bs : Bytes} {entry off : ℕ} : BodyWrites m b b' → entry ∈ m.forEachOffset b' →
      m.data + entry + 8 ≤ off → off + bs.length ≤ m.data + entry + 8 + m.entryLen b' entry →
      (∀ e ∈ m.forEachOffset b', m.entryLen (writeAt b' off bs) e = m.entryLen b' e) →
      BodyWrites m b (writeAt b' off bs)

section Later

variable {keySize keyOffset regionSize : ℕ} {b b' : Bytes} {m : MphfMap}

/-- A lookup answers with the body of an entry that has the key. -/
theorem MphfMap.find_entry {k8 : ℕ} {key : Bytes} {r : ℕ × ℕ} (h : m.find b keyOffset k8 key = some r) :
    ∃ off ∈ m.forEachOffset b, r = (m.data + off + 8, m.entryLen b off) ∧
      slice b (r.1 + keyOffset) key.length = key := by
  have hbody : ∀ off ∈ m.forEachOffset b, m.bodyIfKey b keyOffset key off = some r →
      ∃ off ∈ m.forEachOffset b, r = (m.data + off + 8, m.entryLen b off) ∧
        slice b (r.1 + keyOffset) key.length = key := by
    intro off hoff hb
    unfold MphfMap.bodyIfKey at hb
    dsimp only at hb
    split_ifs at hb with hkey
    obtain rfl := Option.some.inj hb
    exact ⟨off, hoff, rfl, hkey⟩
  unfold MphfMap.find at h
  split at h
  · cases h
  rename_i hkeys
  have hidx : m.indexLookup b (UInt64.ofNat k8) < m.hdr.nKeys :=
    fastModU32_lt _ (Nat.pos_of_ne_zero hkeys)
  dsimp only at h
  split at h
  · rename_i hoff
    exact hbody _ (MphfMap.slotOffset_mem hidx hoff) h
  split at h
  · unfold MphfMap.resolveCollision at h
    obtain ⟨e, he, hb⟩ := exists_of_findSome?_eq_some h
    refine hbody _ (MphfMap.collision_mem hkeys ?_) hb
    exact mem_of_mem_drop (( takeWhile_prefix _).subset he)
  · cases h

variable (hl : MphfLayout keySize keyOffset b m regionSize)

include hl

/-- One write keeps the layout: the tables lie before the data section, and an entry is where its
length word says. -/
theorem MphfLayout.write {bs : Bytes} {entry : ℕ} (he : entry ∈ m.forEachOffset b)
    (hlo : m.data + entry + 8 ≤ off)
    (hhi : off + bs.length ≤ m.data + entry + 8 + m.entryLen b entry)
    (hlen : ∀ e ∈ m.forEachOffset b, m.entryLen (writeAt b off bs) e = m.entryLen b e) :
    MphfLayout keySize keyOffset (writeAt b off bs) m regionSize := by
  obtain ⟨hbody, -⟩ := hl.entries entry he
  have hplace : m.data = m.base + m.hdr.dataOffset := rfl
  have hd := hl.dataEnd
  have hregion := hl.region
  have hin : off + bs.length ≤ b.length := by omega
  have hoff : OffRegion m m.hdr.dataOffset [(off, bs.length)] := by
    intro r hr
    obtain rfl := mem_singleton.mp hr
    exact .inl (by dsimp only; omega)
  refine { hl with region := ?_, entries := ?_ }
  · rw [writeAt_length b bs off hin]
    exact hregion
  · rw [hl.forEachOffset_congr (Frame.writeAt hin) hoff]
    intro e he'
    rw [hlen e he']
    exact hl.entries e he'

theorem MphfLayout.later (hw : BodyWrites m b b') :
    MphfLayout keySize keyOffset b' m regionSize := by
  induction hw with
  | refl => exact hl
  | write _ he hlo hhi hlen ih => exact ih.write he hlo hhi hlen

/-- A place inside the data section. -/
def MphfMap.InData (m : MphfMap) (r : ℕ × ℕ) : Prop :=
  m.data ≤ r.1 ∧ r.1 + r.2 ≤ m.data + m.hdr.dataSize

theorem MphfLayout.entry_inData (hoff : off ∈ m.forEachOffset b) :
    m.InData (m.data + off + 8, m.entryLen b off) ∧ keyOffset + keySize ≤ m.entryLen b off := by
  obtain ⟨hbody, hkey⟩ := hl.entries off hoff
  refine ⟨⟨?_, ?_⟩, hkey⟩ <;> dsimp only <;> omega

end Later

/-- The map over a region, none over an empty one. -/
def MphfMap.over (b : Bytes) (regionOff regionSize : ℕ) : Option MphfMap :=
  if regionSize = 0 then none else some (MphfMap.reset b regionOff)

/-- **What lookups may rely on**: the places a lookup of `key` and the walks read lie in the region,
and the spans they return in the data section. -/
structure LookupsSafe (keySize keyOffset : ℕ) (b : Bytes) (m : MphfMap) (regionSize k8 : ℕ)
    (key : Bytes) :
    Prop where
  region : m.base + regionSize ≤ b.length
  traced : (m.findT b keyOffset k8 key).value = m.find b keyOffset k8 key
  findReads : ∀ r ∈ (m.findT b keyOffset k8 key).reads, m.Holds regionSize r
  offsetReads : ∀ r ∈ m.forEachOffsetReads, m.Holds regionSize r
  walkReads : ∀ r ∈ m.forEachReads b, m.Holds regionSize r
  found : ∀ r, m.find b keyOffset k8 key = some r →
    m.InData r ∧ keyOffset + keySize ≤ r.2 ∧ slice b (r.1 + keyOffset) keySize = key
  walked : ∀ r ∈ m.forEach b, m.InData r ∧ keyOffset + keySize ≤ r.2

/-- **One check makes every later lookup safe.**  For every region `validate_mphf` accepts, every
run of writes into entry bodies that keeps the length words, and every key, `find`, `for_each` and
`for_each_offset` read bytes of the region only, return spans of the data section with room for a
key, and `find` returns one that has the key. -/
theorem validateMphf_lookups_safe (keySize keyOffset : ℕ) (b : Bytes) (regionOff regionSize magic : ℕ)
    (h : validateMphf keySize keyOffset b regionOff regionSize magic = .ok ()) (m : MphfMap)
    (hm : m ∈ MphfMap.over b regionOff regionSize) (b' : Bytes) (hw : BodyWrites m b b') (k8 : ℕ)
    (key : Bytes) (hk : key.length = keySize) :
    LookupsSafe keySize keyOffset b' m regionSize k8 key := by
  obtain ⟨hr, rfl⟩ : regionSize ≠ 0 ∧ MphfMap.reset b regionOff = m := by
    unfold MphfMap.over at hm
    split at hm
    · cases hm
    · rename_i hr
      exact ⟨hr, Option.some.inj hm⟩
  by_cases hkeys : (MphfMap.reset b regionOff).hdr.nKeys = 0
  · -- without keys nothing is read, found, walked or written
    have hnone : ∀ b' : Bytes, (MphfMap.reset b regionOff).forEachOffset b' = [] := by
      intro b'
      unfold MphfMap.forEachOffset
      rw [if_pos hkeys]
    have hsame : b' = b := by
      cases hw with
      | refl => rfl
      | write _ he => simp [hnone] at he
    subst hsame
    have hregion : regionOff + regionSize ≤ b'.length := by
      simp only [validateMphf, hr, if_false, bind_eq_ok, rejectIf_eq_ok] at h
      omega
    have hreads : (MphfMap.reset b' regionOff).forEachOffsetReads = [] := by
      unfold MphfMap.forEachOffsetReads
      rw [if_pos hkeys]
    refine ⟨hregion, MphfMap.findT_value, ?_, ?_, ?_, ?_, ?_⟩
    · unfold MphfMap.findT
      rw [if_pos hkeys]
      simp
    · simp [hreads]
    · simp [MphfMap.forEachReads, hreads, hnone]
    · intro r hfind
      unfold MphfMap.find at hfind
      rw [if_pos hkeys] at hfind
      cases hfind
    · simp [MphfMap.forEach, hnone]
  · have hl := (validateMphf_layout h hr hkeys).later hw
    refine ⟨hl.region, MphfMap.findT_value, hl.findT_holds hk k8, ?_, hl.forEachReads_holds, ?_, ?_⟩
    · exact fun r hr => hl.forEachReads_holds r (mem_append_left _ hr)
    · intro r hfind
      obtain ⟨off, hoff, rfl, hkey⟩ := MphfMap.find_entry hfind
      obtain ⟨hdata, hroom⟩ := hl.entry_inData hoff
      exact ⟨hdata, hroom, hk ▸ hkey⟩
    · intro r hwalk
      obtain ⟨off, hoff, rfl⟩ := mem_map.mp hwalk
      exact hl.entry_inData hoff

namespace Sidecar

/-- A map of three keys of one byte each, whose entries have bodies of eight: one in its slot, and
two of one short key in the sidecar. -/
def region : Bytes :=
  toLe 4 0x4d505031 ++ toLe 4 kMphfMapVersion ++ toLe 4 3 ++ toLe 4 1 ++ toLe 8 0 ++ toLe 8 0 ++
    toLe 4 80 ++ toLe 4 32 ++ toLe 4 56 ++ toLe 4 64 ++ toLe 4 112 ++ toLe 4 56 ++
    toLe 8 0 ++ toLe 4 8 ++ toLe 4 0 ++ toLe 4 0 ++ toLe 4 0 ++
    toLe 8 1 ++ toLe 8 24 ++ toLe 8 1 ++ toLe 8 40 ++
    toLe 8 0 ++ toLe 8 8 ++ toLe 8 7 ++ toLe 8 8 ++ toLe 8 1 ++ toLe 8 8 ++ toLe 8 2

/-- The map over it. -/
def map : MphfMap := MphfMap.reset region 0

/-- The region after a write into the body of the first entry. -/
def written : Bytes := writeAt region 128 [9, 5]

end Sidecar

/-- After a write into its body the entry in the slot is found under the key it has now, and behind
it the second one of the sidecar. -/
theorem validateMphf_sidecar_safe :
    (LookupsSafe 1 0 Sidecar.written Sidecar.map 168 0 [9] ∧
      Sidecar.map.find Sidecar.written 0 0 [9] = some (128, 8)) ∧
    LookupsSafe 1 0 Sidecar.written Sidecar.map 168 1 [2] ∧
      Sidecar.map.find Sidecar.written 0 1 [2] = some (160, 8) := by
  have hvalid : validateMphf 1 0 Sidecar.region 0 168 0 = .ok () := by decide +kernel
  have hentry : 8 ∈ Sidecar.map.forEachOffset Sidecar.region ∧ Sidecar.map.data + 8 + 8 ≤ 128 ∧
      128 + [9, 5].length ≤ Sidecar.map.data + 8 + 8 + Sidecar.map.entryLen Sidecar.region 8 ∧
      ∀ e ∈ Sidecar.map.forEachOffset Sidecar.region,
        Sidecar.map.entryLen Sidecar.written e = Sidecar.map.entryLen Sidecar.region e := by
    decide +kernel
  obtain ⟨hmem, hlo, hhi, hlen⟩ := hentry
  have hwrites : BodyWrites Sidecar.map Sidecar.region Sidecar.written := .write .refl hmem hlo hhi hlen
  exact ⟨⟨validateMphf_lookups_safe 1 0 Sidecar.region 0 168 0 hvalid _ rfl _ hwrites 0 [9] rfl,
      by decide +kernel⟩,
    validateMphf_lookups_safe 1 0 Sidecar.region 0 168 0 hvalid _ rfl _ hwrites 1 [2] rfl,
    by decide +kernel⟩

end Zilkworm.Witness
