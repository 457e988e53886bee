/-
# Flat bundles

`core/types_zz/flat_bundle.hpp` and `load_flat_bundle` of `core/types_zz/flat_bundle.cpp`: a
bundle is a 56-byte header of offset and size pairs and the six sections they name (the
genesis or parent block, the blocks with their flags and engine records, the ancestors'
headers, the pre-state blob, the node store and the network's name).

The loader is handed everything from the bundle's first byte to the end of the envelope and
finds the bundle's own size as the end of the last section.  A bundle it rejects is an error
with the text it prints; a pre-state blob or a node store of a bad layout aborts the program
in the constructor of `DirectState`.  A block count too large to reserve room for ends the
program as well; the model rejects it at the first block that is not there.
-/
import Zilkworm.State.DirectLoad

namespace Zilkworm.Run

open Lib Rlp Zilkworm.Types Witness State

/-- `kFlatBundleMagic`, "FBND". -/
def kFlatBundleMagic : ℕ := 0x444E4246

/-- `kFlatBundleVersion`. -/
def kFlatBundleVersion : ℕ := 14

/-- `sizeof(FlatBundleHeader)`. -/
def flatBundleHeaderSize : ℕ := 56

/-- `kBlockFlagExpectInvalid`. -/
def kBlockFlagExpectInvalid : UInt8 := 0x01

/-- `kBlockFlagEngineRecord`. -/
def kBlockFlagEngineRecord : UInt8 := 0x02

/-- A section of a bundle. -/
structure Section where
  off : ℕ
  size : ℕ
  deriving Repr, DecidableEq

namespace Section

/-- The section whose pair of offset and size stands at `q`. -/
def read (b : Bytes) (q : ℕ) : Section := ⟨u32At b q, u32At b (q + 4)⟩

/-- Where the section ends. -/
def endOff (s : Section) : ℕ := s.off + s.size

/-- The section's bytes. -/
def bytes (s : Section) (b : Bytes) : Bytes := slice b s.off s.size

/-- Two non-empty sections that share a byte. -/
def overlaps (a b : Section) : Bool :=
  a.size ≠ 0 ∧ b.size ≠ 0 ∧ a.off < b.endOff ∧ b.off < a.endOff

end Section

/-- `FlatBundleHeader`. -/
structure FlatBundleHeader where
  magic : ℕ
  version : ℕ
  genesis : Section
  blocks : Section
  ancestors : Section
  directState : Section
  nodeStore : Section
  network : Section
  deriving Repr, DecidableEq

/-- The header at the start of a bundle. -/
def FlatBundleHeader.read (b : Bytes) : FlatBundleHeader where
  magic := u32At b 0
  version := u32At b 4
  genesis := Section.read b 8
  blocks := Section.read b 16
  ancestors := Section.read b 24
  directState := Section.read b 32
  nodeStore := Section.read b 40
  network := Section.read b 48

/-- The sections with their names, in header order. -/
def FlatBundleHeader.sections (h : FlatBundleHeader) : List (Section × String) :=
  [(h.genesis, "genesis"), (h.blocks, "blocks"), (h.ancestors, "ancestors"),
   (h.directState, "direct_state"), (h.nodeStore, "node_store"), (h.network, "network")]

/-- The end of the bundle: of its header or of the last of its sections. -/
def FlatBundleHeader.bundleSize (h : FlatBundleHeader) : ℕ :=
  h.sections.foldl (fun n s => max n s.1.endOff) flatBundleHeaderSize

/-- `BlockEngineRecord`. -/
structure BlockEngineRecord where
  blockHash : Bytes32
  versionedHashes : Bytes
  deriving DecidableEq

/-- `FlatBundle`; `blobSize` is the size of its span, and `direct` the blobs its `DirectState`
stands on. -/
structure FlatBundle where
  blobSize : ℕ
  genesis : Block
  blockRlps : List Bytes
  blockFlags : Bytes
  engineRecords : List (Option BlockEngineRecord)
  ancestors : List BlockHeader
  ancestorRlps : List Bytes
  ancestorsWellFormed : Bool
  direct : PreState
  nodeStore : Bytes
  network : Bytes

/-- Why a bundle did not load. -/
inductive LoadError where
  | rejected (text : String)
  | aborted (text : String)
  deriving Repr, DecidableEq

/-! ## The blocks section -/

/-- The block RLPs from `cursor` on, each padded to eight bytes, and the offset behind them. -/
def splitBlocks (blob : Bytes) (sectionEnd : ℕ) : (n cursor : ℕ) → Except String (List Bytes × ℕ)
  | 0, cursor => .ok ([], cursor)
  | n + 1, cursor => do
    rejectIf (sectionEnd ≤ cursor) "load_flat_bundle: blocks cursor past section end"
    let v := slice blob cursor (sectionEnd - cursor)
    match decodeHeader v with
    | .error _ => .error "load_flat_bundle: block outer header"
    | .ok (outer, rest) =>
      rejectIf (outer.list = false) "load_flat_bundle: block outer header"
      let total := outer.payloadLength + (v.length - rest.length)
      rejectIf (sectionEnd < cursor + total) "load_flat_bundle: block overruns section"
      let (blocks, cursor') ← splitBlocks blob sectionEnd n (align8 (cursor + total))
      return (slice blob cursor total :: blocks, cursor')

/-- The engine records of the flagged blocks, in block order, from `pos` on. -/
def readEngineRecords (blob : Bytes) (sectionEnd : ℕ) :
    Bytes → (pos : ℕ) → Except String (List (Option BlockEngineRecord))
  | [], _ => .ok []
  | flag :: flags, pos =>
    if flag &&& kBlockFlagEngineRecord = 0 then do
      let recs ← readEngineRecords blob sectionEnd flags pos
      return none :: recs
    else do
      rejectIf (sectionEnd < pos ∨ sectionEnd - pos < 40)
        "load_flat_bundle: engine record overruns section"
      let n := u64At blob (pos + 32)
      rejectIf ((sectionEnd - (pos + 40)) / 32 < n)
        "load_flat_bundle: engine record overruns section"
      let recs ← readEngineRecords blob sectionEnd flags (pos + 40 + n * 32)
      return some ⟨FixedBytes.load 32 (slice blob pos 32), slice blob (pos + 40) (n * 32)⟩ :: recs

/-- The blocks section: the blocks, their flags and their engine records, both empty when
absent. -/
def readBlocks (blob : Bytes) (s : Section) :
    Except String (List Bytes × Bytes × List (Option BlockEngineRecord)) := do
  rejectIf (s.size < 8) "load_flat_bundle: blocks section too small"
  let (blocks, cursor) ← splitBlocks blob s.endOff (u64At blob s.off) (s.off + 8)
  let flags :=
    if blocks ≠ [] ∧ cursor + blocks.length ≤ s.endOff then slice blob cursor blocks.length else []
  let recs ← if flags.any fun f => f &&& kBlockFlagEngineRecord ≠ 0 then
      readEngineRecords blob s.endOff flags (align8 (cursor + flags.length))
    else .ok []
  return (blocks, flags, recs)

/-! ## The ancestors section -/

/-- The ancestors section as it is read. -/
structure Ancestors where
  headers : List BlockHeader := []
  rlps : List Bytes := []
  wellFormed : Bool := true

/-- One entry of the list: a header's RLP, or a byte string wrapping one.  It has to decode as
exactly one header; an entry that does not is left out. -/
def Ancestors.add (a : Ancestors) (headerRlp : Bytes) : Ancestors :=
  match decodeBlockHeader .prohibit headerRlp with
  | .error _ => { a with wellFormed := false }
  | .ok (header, _) => { a with headers := a.headers ++ [header], rlps := a.rlps ++ [headerRlp] }

/-- The entries of the list's payload. -/
def readAncestorEntries : (fuel : ℕ) → Bytes → Ancestors → Except String Ancestors
  | _, [], a => .ok a
  | 0, _, _ => .error "load_flat_bundle: bad ancestor entry"
  | fuel + 1, lv, a =>
    match decodeHeader lv with
    | .error _ => .error "load_flat_bundle: bad ancestor entry"
    | .ok (eh, rest) => do
      rejectIf (rest.length < eh.payloadLength) "load_flat_bundle: bad ancestor entry"
      let entryLen := lv.length - rest.length + eh.payloadLength
      let headerRlp := if eh.list then lv.take entryLen else rest.take eh.payloadLength
      readAncestorEntries fuel (rest.drop eh.payloadLength) (a.add headerRlp)

/-- The ancestors section. -/
def readAncestors (v : Bytes) : Except String Ancestors :=
  if v = [] then .ok {}
  else
    match decodeHeader v with
    | .ok (⟨true, payloadLength⟩, rest) =>
      readAncestorEntries (rest.take payloadLength).length (rest.take payloadLength) {}
    | _ => .ok { wellFormed := false }

/-! ## The loader -/

/-- The checks of the header and of the sections' bounds. -/
def checkSections (blob : Bytes) : Except String FlatBundleHeader := do
  rejectIf (blob.length < flatBundleHeaderSize) "load_flat_bundle: blob too small"
  let hdr := FlatBundleHeader.read blob
  rejectIf (hdr.magic ≠ kFlatBundleMagic) "load_flat_bundle: bad magic"
  rejectIf (hdr.version ≠ kFlatBundleVersion) "load_flat_bundle: bad version"
  hdr.sections.forM fun s =>
    rejectIf (blob.length < s.1.endOff) ("load_flat_bundle: " ++ s.2 ++ " section out of range")
  rejectIf (hdr.directState.off % 8 ≠ 0) "load_flat_bundle: direct_state_off misaligned"
  rejectIf (¬ hdr.sections.Pairwise fun a b => a.1.overlaps b.1 = false)
    "load_flat_bundle: section overlap"
  return hdr

/-- What the loader reads of the sections before it builds the `DirectState`. -/
def readSections (blob : Bytes) (hdr : FlatBundleHeader) :
    Except String (Block × (List Bytes × Bytes × List (Option BlockEngineRecord)) × Ancestors) := do
  let genesis ← match decodeBlock .prohibit (hdr.genesis.bytes blob) with
    | .error _ => .error "load_flat_bundle: genesis decode"
    | .ok (genesis, _) => .ok genesis
  let blocks ← readBlocks blob hdr.blocks
  let ancestors ← readAncestors (hdr.ancestors.bytes blob)
  return (genesis, blocks, ancestors)

/-- The constructor of `DirectState` over the pre-state blob at address `addr`. -/
def loadPreState (addr : ℕ) (bytes : Bytes) : Except LoadError PreState :=
  match h : validatePrestateLayout addr bytes with
  | .error text => .error (.aborted text)
  | .ok () => .ok ⟨addr, bytes, h⟩

/-- A blob of a good layout is loaded. -/
theorem loadPreState_of_valid {addr : ℕ} {b : Bytes} (h : validatePrestateLayout addr b = .ok ()) :
    loadPreState addr b = .ok ⟨addr, b, h⟩ := by
  unfold loadPreState
  split
  · rename_i text herr
    rw [h] at herr
    cases herr
  · rfl

theorem loadPreState_layout {addr : ℕ} {b : Bytes} {s : PreState} (h : loadPreState addr b = .ok s) :
    validatePrestateLayout addr b = .ok () := by
  unfold loadPreState at h
  split at h
  · cases h
  · assumption

/-- `load_flat_bundle` of the span `blob` at address `addr`. -/
def loadFlatBundle (addr : ℕ) (blob : Bytes) : Except LoadError FlatBundle := do
  let hdr ← (checkSections blob).mapError LoadError.rejected
  let (genesis, (blockRlps, blockFlags, engineRecords), ancestors) ←
    (readSections blob hdr).mapError LoadError.rejected
  let direct ← loadPreState (addr + hdr.directState.off) (hdr.directState.bytes blob)
  let nodeStore := hdr.nodeStore.bytes blob
  (validateNodestoreLayout (addr + hdr.nodeStore.off) nodeStore).mapError LoadError.aborted
  return {
    blobSize := hdr.bundleSize
    genesis := genesis
    blockRlps := blockRlps
    blockFlags := blockFlags
    engineRecords := engineRecords
    ancestors := ancestors.headers
    ancestorRlps := ancestors.rlps
    ancestorsWellFormed := ancestors.wellFormed
    direct := direct
    nodeStore := nodeStore
    network := hdr.network.bytes blob }

/-! ## The writer -/

/-- An engine record as the blocks section holds it. -/
def BlockEngineRecord.encode (r : BlockEngineRecord) : Bytes :=
  r.blockHash.val ++ toLe 8 (r.versionedHashes.length / 32) ++ r.versionedHashes

/-- The blocks section `build_flat_bundle` writes. -/
def buildBlocks (blockRlps : List Bytes) (blockFlags : Bytes)
    (engineRecords : List (Option BlockEngineRecord)) : Bytes :=
  let front := toLe 8 blockRlps.length ++ blockRlps.flatMap padded8 ++ blockFlags
  let recs := (engineRecords.filterMap id).flatMap BlockEngineRecord.encode
  if recs = [] then front else padded8 front ++ recs

/-- `build_flat_bundle`. -/
def buildFlatBundle (genesisRlp : Bytes) (blockRlps : List Bytes) (ancestorsRlp directStateBlob
    nodeStoreBlob network : Bytes) (blockFlags : Bytes := [])
    (engineRecords : List (Option BlockEngineRecord) := []) : Bytes :=
  let sections := [genesisRlp, buildBlocks blockRlps blockFlags engineRecords, ancestorsRlp,
    directStateBlob, nodeStoreBlob, network]
  let (pairs, _) := sections.foldl (fun (acc : Bytes × ℕ) b =>
    (acc.1 ++ toLe 4 acc.2 ++ toLe 4 b.length, align8 (acc.2 + b.length))) ([], flatBundleHeaderSize)
  toLe 4 kFlatBundleMagic ++ toLe 4 kFlatBundleVersion ++ pairs ++ sections.flatMap padded8

/-! ## The bundle's size -/

/-- A bound on the header and on every section bounds the bundle. -/
theorem FlatBundleHeader.bundleSize_le {h : FlatBundleHeader} {n : ℕ} (hn : flatBundleHeaderSize ≤ n)
    (hs : ∀ s ∈ h.sections, s.1.endOff ≤ n) : h.bundleSize ≤ n := by
  have fold : ∀ (l : List (Section × String)) (m : ℕ), m ≤ n → (∀ s ∈ l, s.1.endOff ≤ n) →
      l.foldl (fun n s => max n s.1.endOff) m ≤ n := by
    intro l
    induction l with
    | nil => intro m hm _; exact hm
    | cons s l ih =>
      intro m hm hl
      exact ih _ (max_le hm (hl s (by simp))) fun t ht => hl t (by simp [ht])
  exact fold _ _ hn hs

/-- A header that passes the checks is the one read, and its sections lie inside the blob. -/
theorem checkSections_spec {blob : Bytes} {hdr : FlatBundleHeader} (h : checkSections blob = .ok hdr) :
    hdr = FlatBundleHeader.read blob ∧ flatBundleHeaderSize ≤ blob.length ∧
      ∀ s ∈ hdr.sections, s.1.endOff ≤ blob.length := by
  unfold checkSections at h
  simp only [bind_eq_ok, rejectIf_eq_ok, pure_eq_ok] at h
  obtain ⟨_, hlen, _, -, _, -, _, hs, -, -, -, -, rfl⟩ := h
  exact ⟨rfl, by omega, fun s hmem => by simpa using forM_eq_ok.mp hs s hmem⟩

/-- **A loaded bundle has the size its header gives it**, and lies inside the span it was loaded
from. -/
theorem loadFlatBundle_blobSize {addr : ℕ} {blob : Bytes} {fb : FlatBundle}
    (h : loadFlatBundle addr blob = .ok fb) :
    fb.blobSize = (FlatBundleHeader.read blob).bundleSize ∧ fb.blobSize ≤ blob.length := by
  unfold loadFlatBundle at h
  simp only [bind_eq_ok, mapError_eq_ok, pure_eq_ok] at h
  obtain ⟨hdr, hc, _, -, _, -, _, -, rfl⟩ := h
  obtain ⟨rfl, hsize, hsections⟩ := checkSections_spec hc
  exact ⟨rfl, FlatBundleHeader.bundleSize_le hsize hsections⟩

end Zilkworm.Run
