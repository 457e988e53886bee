/-
# The perfect-hash maps of a witness

`core/common_zz/mphf_map.hpp`: a map region is a 56-byte header, a displacement table, a
table of slot offsets (zero for a slot that collided), a sidecar of collisions and a data
section of entries `[len:u64][body]`.  `MphfMap` reads it in place, unchecked, after
`validate_mphf` has checked the layout once.

A map is named by the offset of its header in the buffer that holds it, and every reader
takes the buffer: entry bodies are written through later.  A failed check is an error with
the text the source prints for it; where the source goes on checking and prints more than
one, the first is kept.
-/
import Zilkworm.Lib.Memory
import Zilkworm.Lib.Codec

namespace Zilkworm.Witness

open Lib

variable (b : Bytes) (m : MphfMap)

/-- `kMphfMapVersion`. -/
def kMphfMapVersion : ℕ := 3

/-- `sizeof(MphfMapHeader)`. -/
def mphfHeaderSize : ℕ := 56

/-- `sizeof(MphfCollisionEntry)`. -/
def mphfCollisionSize : ℕ := 16

/-- `mix64_body`. -/
def mix64Body (z : UInt64) : UInt64 :=
  let z := (z ^^^ (z >>> 30)) * 0xBF58476D1CE4E5B9
  z ^^^ (z >>> 31)

/-- `fast_mod_u32`, on the low 32 bits of a hash. -/
def fastModU32 (x : UInt64) (n : ℕ) : ℕ := x.toNat % 2 ^ 32 * n / 2 ^ 32

/-- `mphf_align8`, on 32 bits. -/
def mphfAlign8 (v : ℕ) : ℕ := (v + 7) % 2 ^ 32 / 8 * 8

/-- `MphfMapHeader`; its `seed`, which no reader uses, is left out. -/
structure MphfMapHeader where
  magic : ℕ
  version : ℕ
  nKeys : ℕ
  nBuckets : ℕ
  seedFactor : ℕ
  collisionsOffset : ℕ
  collisionsSize : ℕ
  displacementOffset : ℕ
  slotOffsetsOffset : ℕ
  dataOffset : ℕ
  dataSize : ℕ
  deriving Repr, DecidableEq

/-- The header at offset `off` of the buffer. -/
def MphfMapHeader.read (off : ℕ) : MphfMapHeader where
  magic := u32At b off
  version := u32At b (off + 4)
  nKeys := u32At b (off + 8)
  nBuckets := u32At b (off + 12)
  seedFactor := u64At b (off + 24)
  collisionsOffset := u32At b (off + 32)
  collisionsSize := u32At b (off + 36)
  displacementOffset := u32At b (off + 40)
  slotOffsetsOffset := u32At b (off + 44)
  dataOffset := u32At b (off + 48)
  dataSize := u32At b (off + 52)

/-- `MphfMap` over a header: where the region starts, and the fields `reset` caches. -/
structure MphfMap where
  base : ℕ
  hdr : MphfMapHeader
  deriving Repr, DecidableEq

namespace MphfMap

/-- `MphfMap::reset` over the header at `base`. -/
def reset (base : ℕ) : MphfMap := ⟨base, MphfMapHeader.read b base⟩

/-- The offset of the data section in the buffer. -/
def data : ℕ := m.base + m.hdr.dataOffset

/-- `n_collisions_`. -/
def nCollisions : ℕ := m.hdr.collisionsSize / mphfCollisionSize

/-- `slot_offsets_[i]`. -/
def slotOffset (i : ℕ) : ℕ :=
  u32At b (m.base + m.hdr.slotOffsetsOffset + 4 * i)

/-- `collisions_[i]`: a short key and a data offset. -/
def collision (i : ℕ) : ℕ × ℕ :=
  let q := m.base + m.hdr.collisionsOffset + mphfCollisionSize * i
  (u64At b q, u64At b (q + 8))

/-- The collision sidecar. -/
def collisions : List (ℕ × ℕ) :=
  (List.range m.nCollisions).map (m.collision b)

/-- The length word of the entry at data offset `off`. -/
def entryLen (off : ℕ) : ℕ := u64At b (m.data + off)

/-- `for_each_offset`: the data offsets of the singleton slots, then of the sidecar. -/
def forEachOffset : List ℕ :=
  if m.hdr.nKeys = 0 then []
  else ((List.range m.hdr.nKeys).map (m.slotOffset b)).filter (· ≠ 0) ++
    (m.collisions b).map (·.2)

/-- `index_lookup`. -/
def indexLookup (key : UInt64) : ℕ :=
  let z1 := key + UInt64.ofNat m.hdr.seedFactor
  let bucket := fastModU32 (mix64Body z1) m.hdr.nBuckets
  let df := UInt64.ofNat (u64At b (m.base + m.hdr.displacementOffset + 8 * bucket))
  fastModU32 (mix64Body (z1 + df)) m.hdr.nKeys

/-- The body of the entry at data offset `off`, as its place in the buffer and its length, if
it carries the key at `keyOffset`. -/
def bodyIfKey (keyOffset : ℕ) (key : Bytes) (off : ℕ) : Option (ℕ × ℕ) :=
  let body := m.data + off + 8
  if slice b (body + keyOffset) key.length = key then some (body, m.entryLen b off) else none

/-- `resolve_collision`: the sidecar from `std::lower_bound` of the short key on, while it has
that key. -/
def resolveCollision (keyOffset : ℕ) (k8 : ℕ) (key : Bytes) :
    Option (ℕ × ℕ) :=
  let sidecar := m.collisions b
  let start := lowerBound (fun i => (sidecar.getD i (0, 0)).1 < k8) m.nCollisions 0 m.nCollisions
  ((sidecar.drop start).takeWhile (·.1 = k8)).findSome? fun e => m.bodyIfKey b keyOffset key e.2

/-- `find`, with the key's short form `k8`. -/
def find (keyOffset : ℕ) (k8 : ℕ) (key : Bytes) : Option (ℕ × ℕ) :=
  if m.hdr.nKeys = 0 then none
  else
    let off := m.slotOffset b (m.indexLookup b (UInt64.ofNat k8))
    if off ≠ 0 then m.bodyIfKey b keyOffset key off
    else if m.nCollisions > 0 then m.resolveCollision b keyOffset k8 key
    else none

end MphfMap

/-- `hash_key8`: the first eight bytes of a hash, little-endian. -/
def hashKey8 (hash : Bytes) : ℕ := u64At hash 0

/-- `addr_key8`: the first seven bytes of an address and its last. -/
def addrKey8 (addr : Bytes) : ℕ := leNat (slice addr 0 7) + (byteAt addr 19).toNat * 2 ^ 56

/-- `bounds_within_region`. -/
def boundsWithinRegion (off size regionSize : ℕ) : Prop :=
  off ≤ regionSize ∧ size ≤ regionSize ∧ off + size ≤ regionSize

instance (off size regionSize : ℕ) : Decidable (boundsWithinRegion off size regionSize) :=
  inferInstanceAs (Decidable (_ ∧ _ ∧ _))

/-- `entry_within_data` for keys of `keySize` bytes at `keyOffset` of the body. -/
def entryWithinData (keySize keyOffset off : ℕ) : Except String Unit := do
  rejectIf (off % 8 ≠ 0) "MphfMapHeader: validate_mphf: entry offset not 8-aligned"
  rejectIf (m.hdr.dataSize < off ∨ m.hdr.dataSize - off < 8)
    "MphfMapHeader: validate_mphf: entry header out of data region"
  let bodyLen := m.entryLen b off
  rejectIf (m.hdr.dataSize - off - 8 < bodyLen)
    "MphfMapHeader: validate_mphf: entry body out of data region"
  rejectIf (bodyLen < keyOffset + keySize)
    "MphfMapHeader: validate_mphf: entry body shorter than its key"

/-- `validate_mphf` of a map with at least one key: the tables and the data section. -/
def validateSections (m : MphfMapHeader) (regionSize : ℕ) : Except String Unit := do
  rejectIf (m.displacementOffset % 8 ≠ 0) "MphfMapHeader: validate_mphf: displacement_offset misaligned"
  rejectIf (m.nBuckets = 0) "MphfMapHeader: validate_mphf: n_buckets == 0 with n_keys > 0"
  rejectIf (¬ boundsWithinRegion m.displacementOffset (m.nBuckets * 8) regionSize)
    "MphfMapHeader: validate_mphf: displacement table out of range"
  rejectIf (m.slotOffsetsOffset % 4 ≠ 0) "MphfMapHeader: validate_mphf: slot_offsets misaligned"
  rejectIf (¬ boundsWithinRegion m.slotOffsetsOffset (m.nKeys * 4) regionSize)
    "MphfMapHeader: validate_mphf: slot_offsets out of range"
  rejectIf (0 < m.collisionsSize ∧ m.collisionsOffset % 8 ≠ 0)
    "MphfMapHeader: validate_mphf: collisions_offset misaligned"
  rejectIf (0 < m.collisionsSize ∧ m.collisionsSize % mphfCollisionSize ≠ 0)
    "MphfMapHeader: validate_mphf: collisions_size not a MphfCollisionEntry multiple"
  rejectIf (0 < m.collisionsSize ∧ ¬ boundsWithinRegion m.collisionsOffset m.collisionsSize regionSize)
    "MphfMapHeader: validate_mphf: collisions out of range"
  rejectIf (m.dataOffset % 8 ≠ 0) "MphfMapHeader: validate_mphf: data_offset misaligned"
  rejectIf (¬ boundsWithinRegion m.dataOffset m.dataSize regionSize)
    "MphfMapHeader: validate_mphf: data region out of range"
  rejectIf (m.dataOffset < mphfHeaderSize ∨ m.dataOffset < m.displacementOffset + m.nBuckets * 8 ∨
      m.dataOffset < m.slotOffsetsOffset + m.nKeys * 4 ∨
      (0 < m.collisionsSize ∧ m.dataOffset < m.collisionsOffset + m.collisionsSize))
    "MphfMapHeader: validate_mphf: data section overlaps a preceding section"

/-- `validate_mphf<KeySize, KeyOffset>` of the region `[regionOff, regionOff + regionSize)`. -/
def validateMphf (keySize keyOffset : ℕ) (b : Bytes) (regionOff regionSize expectedMagic : ℕ) :
    Except String Unit :=
  if regionSize = 0 then .ok ()
  else do
    rejectIf (b.length < regionOff + regionSize) "MphfMapHeader: validate_mphf: region out of base"
    rejectIf (regionSize < mphfHeaderSize)
      "MphfMapHeader: validate_mphf: region smaller than MphfMapHeader"
    rejectIf (regionOff % 8 ≠ 0)
      "MphfMapHeader: validate_mphf: region offset misaligned for MphfMapHeader"
    let m := MphfMap.reset b regionOff
    rejectIf (expectedMagic ≠ 0 ∧ m.hdr.magic ≠ expectedMagic)
      "MphfMapHeader: validate_mphf: bad magic"
    rejectIf (m.hdr.version ≠ kMphfMapVersion) "MphfMapHeader: validate_mphf: bad version"
    if m.hdr.nKeys = 0 then .ok ()
    else do
      validateSections m.hdr regionSize
      (m.forEachOffset b).forM (entryWithinData b m keySize keyOffset)

end Zilkworm.Witness
