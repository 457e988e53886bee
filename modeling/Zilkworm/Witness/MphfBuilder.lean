/-
# Building a perfect-hash map

`core/common_zz/mphf_builder.cpp`: `MphfBuilder::add` collects bodies under 8-byte short
keys, those of equal short keys in a sidecar; `finalize` looks for a seed and for one
displacement per bucket that send every short key to a slot of its own (`chd_solve`), puts
the keys it cannot place in the sidecar, and writes the region that `MphfMap` reads.

The search limits are the builder's overrides, zero for the defaults.  The loop over the
displacements has a 32-bit counter `d <= max_d`: with the limit `2^32 - 1` it does not end
unless it finds a displacement, and the model then has no result (`none`).  Sizes and
offsets are plain numbers: the region is meant to be smaller than `2^32` bytes.
-/
import Zilkworm.Lib.Displace
import Zilkworm.Witness.MphfMap
import Mathlib.Data.List.AList
import Mathlib.Data.List.Sort

namespace Zilkworm.Witness

open Lib Displace

/-- `kMphfGoldenRatio`. -/
def kMphfGoldenRatio : UInt64 := 0x9E3779B97F4A7C15

/-- `kLambda`. -/
def kLambda : ℕ := 4

/-- `kMaxDisplacement`. -/
def kMaxDisplacement : UInt32 := 1048576

/-- `kMaxSeedRetries`. -/
def kMaxSeedRetries : UInt32 := 32

/-- The two overrides of a builder, zero for the default. -/
structure SearchLimits where
  maxRetries : UInt32 := 0
  maxDisplacement : UInt32 := 0
  deriving DecidableEq

/-- `max_retries`. -/
def SearchLimits.retries (l : SearchLimits) : ℕ :=
  (if l.maxRetries ≠ 0 then l.maxRetries else kMaxSeedRetries).toNat

/-- `max_d`. -/
def SearchLimits.maxD (l : SearchLimits) : ℕ :=
  (if l.maxDisplacement ≠ 0 then l.maxDisplacement else kMaxDisplacement).toNat

/-! ## The search -/

section Search

variable (keys : List UInt64) (seedTry : ℕ)

/-- `n_buckets`. -/
def nBucketsFor (nKeys : ℕ) : ℕ := max 1 ((nKeys + kLambda - 1) / kLambda)

/-- `seed_factor`. -/
def seedFactorOf : UInt64 := UInt64.ofNat seedTry * kMphfGoldenRatio

/-- `z1_cache[i]`. -/
def z1Of (i : ℕ) : UInt64 := keys.getD i 0 + seedFactorOf seedTry

/-- The bucket of key `i`. -/
def bucketOf (i : ℕ) : ℕ := fastModU32 (mix64Body (z1Of keys seedTry i)) (nBucketsFor keys.length)

/-- The slot a displacement factor sends key `i` to. -/
def slotFor (dFactor : UInt64) (i : ℕ) : ℕ :=
  fastModU32 (mix64Body (z1Of keys seedTry i + dFactor)) keys.length

/-- `d_factor`. -/
def dFactorOf (d : ℕ) : UInt64 :=
  ((UInt64.ofNat seedTry ^^^ UInt64.ofNat d ^^^ kMphfGoldenRatio) - UInt64.ofNat seedTry) *
    kMphfGoldenRatio

/-- The keys of bucket `b`. -/
def bucketAt (b : ℕ) : List ℕ :=
  (List.range keys.length).filter fun i => bucketOf keys seedTry i = b

/-- The buckets, largest first; equal sizes keep their order (`std::stable_sort`). -/
def bucketOrder : List ℕ :=
  (List.range (nBucketsFor keys.length)).insertionSort fun a b =>
    (bucketAt keys seedTry b).length ≤ (bucketAt keys seedTry a).length

/-- One displacement tried on a bucket. -/
def tryDisplacement (owner : ℕ → Option ℕ) (bucket : List ℕ) (d : ℕ) : Option (UInt64 × List ℕ) :=
  (tryPositions owner (slotFor keys seedTry (dFactorOf seedTry d)) bucket []).map
    (dFactorOf seedTry d, ·)

/-- The displacements `0, …, maxD` tried on a bucket in turn.  The loop's counter has 32 bits, so
that the largest limit is never exceeded: nothing found is then no result. -/
def searchDisplacement (maxD : ℕ) (owner : ℕ → Option ℕ) (bucket : List ℕ) :
    Option (Option (UInt64 × List ℕ)) :=
  match firstSome (tryDisplacement keys seedTry owner bucket) (maxD + 1) 0 with
  | some found => some (some found)
  | none => if maxD = 2 ^ 32 - 1 then none else some none

/-- One bucket of an attempt; an empty one keeps the factor zero. -/
def placeStep (maxD : ℕ) (p : Placement UInt64) (b : ℕ) : Option (Placement UInt64) :=
  match bucketAt keys seedTry b with
  | [] => some { p with disp := Function.update p.disp b 0 }
  | bucket => (searchDisplacement keys seedTry maxD p.owner bucket).map fun found =>
    placeBucket (slotFor keys seedTry) 0 b bucket found p

/-- No slot taken. -/
def noPlacement : Placement UInt64 := ⟨fun _ => none, fun _ => 2 ^ 32 - 1, fun _ => 0, []⟩

/-- All buckets of an attempt. -/
def placeAll (maxD : ℕ) : Option (Placement UInt64) :=
  (bucketOrder keys seedTry).foldlM (placeStep keys seedTry maxD) noPlacement

/-- `Attempt`: a seed, the factors by bucket, the slots by key and the spilled keys. -/
structure Attempt where
  seedTry : ℕ
  disp : ℕ → UInt64
  slot : ℕ → ℕ
  spilled : List ℕ

/-- An attempt with one seed: the buckets are placed, and the owners of spilled keys' slots are
spilled too. -/
def attempt (maxD : ℕ) : Option Attempt :=
  (placeAll keys seedTry maxD).map fun p =>
    ⟨seedTry, p.disp, p.slot,
      p.spilled ++ coSpill p.slot (p.spilled.length + keys.length) p.spilled p.owner⟩

/-- The loop over the seeds: the first attempt that spills nothing, or the first of those that spill
least. -/
def trySeeds (attempt : ℕ → Option Attempt) : (fuel seedTry : ℕ) → (best : Option Attempt) →
    Option (Option Attempt)
  | 0, _, best => some best
  | fuel + 1, seedTry, best => do
    let a ← attempt seedTry
    if a.spilled = [] then return some a
    else
      let best := match best with
        | none => a
        | some b => if a.spilled.length < b.spilled.length then a else b
      trySeeds attempt fuel (seedTry + 1) (some best)

end Search

/-- `chd_solve`; the inner `none` is a failed search. -/
def chdSolve (keys : List UInt64) (limits : SearchLimits) : Option (Option Attempt) :=
  if keys = [] then some (some ⟨0, fun _ => 0, fun _ => 0, []⟩)
  else trySeeds (fun seedTry => attempt keys seedTry limits.maxD) limits.retries 0 none

/-! ## The builder -/

/-- `MphfBuilder`: the bodies by short key, empty for one that went to the sidecar, and the
sidecar's keys and bodies. -/
structure MphfBuilder where
  unique : AList (fun _ : UInt64 => Bytes) := ∅
  collisions : List (UInt64 × Bytes) := []

/-- Moves the body of a short key to the sidecar. -/
def MphfBuilder.toSidecar (b : MphfBuilder) (key : UInt64) : MphfBuilder :=
  match b.unique.lookup key with
  | some (x :: xs) => ⟨b.unique.insert key [], b.collisions ++ [(key, x :: xs)]⟩
  | _ => b

/-- `MphfBuilder::add`. -/
def MphfBuilder.add (b : MphfBuilder) (key : UInt64) (body : Bytes) : MphfBuilder :=
  if key ∈ b.unique then
    let b := b.toSidecar key
    { b with collisions := b.collisions ++ [(key, body)] }
  else { b with unique := b.unique.insert key body }

/-- `distinct_keys`, ascending. -/
def MphfBuilder.distinctKeys (b : MphfBuilder) : List UInt64 := b.unique.keys.insertionSort (· ≤ ·)

/-- The body a short key has in the map. -/
def MphfBuilder.body (b : MphfBuilder) (key : UInt64) : Bytes := (b.unique.lookup key).getD []

/-- `entry_size`. -/
def entrySize (bodyLen : ℕ) : ℕ := align8 (8 + bodyLen)

/-- An entry of the data section: the length word, the body and its padding. -/
def entryBytes (body : Bytes) : Bytes :=
  toLe 8 body.length ++ body ++ List.replicate (entrySize body.length - (8 + body.length)) 0

/-- The offsets of entries one behind the other, from `cur` on. -/
def entryOffsets : (cur : ℕ) → (bodies : List Bytes) → List ℕ
  | _, [] => []
  | cur, body :: bodies => cur :: entryOffsets (cur + entrySize body.length) bodies

/-- The data section: the sentinel and the entries. -/
def dataSection (bodies : List Bytes) : Bytes := List.replicate 8 0 ++ bodies.flatMap entryBytes

/-- The tables of a region and its data section. -/
structure Region where
  seedTry : ℕ
  /-- The factors, one per bucket. -/
  disp : List UInt64
  /-- The slots' offsets, one per key. -/
  slots : List ℕ
  /-- The sidecar, sorted. -/
  collisions : List (UInt64 × ℕ)
  bodies : List Bytes

namespace Region

variable (r : Region)

/-- `slot_offsets_offset`. -/
def slotOffsetsOffset : ℕ := mphfHeaderSize + align8 (8 * r.disp.length)

/-- `collisions_offset`. -/
def collisionsOffset : ℕ := r.slotOffsetsOffset + align8 (4 * r.slots.length)

/-- `data_offset`. -/
def dataOffset : ℕ := r.collisionsOffset + align8 (mphfCollisionSize * r.collisions.length)

/-- `data_size`. -/
def dataSize : ℕ := 8 + (r.bodies.map fun body => entrySize body.length).sum

/-- The header; its last words are the offsets and sizes of the sections. -/
def header (magic : ℕ) : Bytes :=
  [magic, kMphfMapVersion, r.slots.length, r.disp.length].flatMap (toLe 4) ++
    [r.seedTry, (seedFactorOf r.seedTry).toNat].flatMap (toLe 8) ++
    [r.collisionsOffset, mphfCollisionSize * r.collisions.length, mphfHeaderSize, r.slotOffsetsOffset,
      r.dataOffset, r.dataSize].flatMap (toLe 4)

/-- The region's bytes. -/
def bytes (magic : ℕ) : Bytes :=
  r.header magic ++ padded8 (r.disp.flatMap fun f => toLe 8 f.toNat) ++
    padded8 (r.slots.flatMap (toLe 4)) ++
    padded8 (r.collisions.flatMap fun e => toLe 8 e.1.toNat ++ toLe 8 e.2) ++
    padded8 (dataSection r.bodies)

end Region

/-- The tables `finalize` fills in for a solution: the bodies still in the map come first, in key
order, then the sidecar's. -/
def MphfBuilder.region (b : MphfBuilder) (keys : List UInt64) (a : Attempt) : Region :=
  let live := (List.range keys.length).filter fun i => b.body (keys.getD i 0) ≠ []
  let liveBodies := live.map fun i => b.body (keys.getD i 0)
  let bodies := liveBodies ++ b.collisions.map Prod.snd
  let offsets := entryOffsets 8 bodies
  let slots := (live.zip offsets).foldl (fun s e => Function.update s (a.slot e.1) e.2) fun _ => 0
  { seedTry := a.seedTry
    disp := (List.range (nBucketsFor keys.length)).map a.disp
    slots := (List.range keys.length).map slots
    collisions := ((b.collisions.map Prod.fst).zip (offsets.drop live.length)).insertionSort
      fun x y => x.1 ≤ y.1
    bodies := bodies }

/-- `MphfBuilder::finalize`: the region, empty if the search failed; `none` if it does not end. -/
def MphfBuilder.finalize (b : MphfBuilder) (magic : ℕ) (limits : SearchLimits) : Option Bytes :=
  let keys := b.distinctKeys
  (chdSolve keys limits).map fun
    | none => []
    | some a =>
      -- spilled keys go to the sidecar
      let b := a.spilled.foldl (fun b i => b.toSidecar (keys.getD i 0)) b
      (b.region keys a).bytes magic

end Zilkworm.Witness
