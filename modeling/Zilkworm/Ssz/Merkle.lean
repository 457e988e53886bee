/-
# SSZ Merkle roots

`core/common_zz/ssz_merkle.{hpp,cpp}`: the hash tree roots of the types a `NewPayloadRequest` is
made of.  SHA-256 lies outside the repository and is an argument.
-/
import Zilkworm.Types.Transaction
import Mathlib.Data.Nat.Log

namespace Zilkworm.Ssz

open Lib Rlp Zilkworm.Types

section

variable (sha256 : Bytes → Bytes32)

/-- `hash_nodes`. -/
def hashNodes (a b : Bytes32) : Bytes32 := sha256 (a.val ++ b.val)

/-- `zero_hashes`: the root of an all-zero subtree of a depth.  The table of the source has the
depths below 64, which a count of at most `2 ^ 63` needs. -/
def zeroHash : (depth : ℕ) → Bytes32
  | 0 => zeroBytes32
  | d + 1 => hashNodes sha256 (zeroHash d) (zeroHash d)

/-- `depth_for`: the zero bits below the one of `std::bit_ceil(leaves)`, which is defined for at
most `2 ^ 63` leaves. -/
def depthFor (leaves : ℕ) : ℕ := Nat.clog 2 leaves

/-- `pack`. -/
def pack (bytes : Bytes) : List Bytes32 :=
  (List.range ((bytes.length + 31) / 32)).map fun i => FixedBytes.load 32 (slice bytes (i * 32) 32)

/-- One level of `merkleize`; an odd node is paired with the zero subtree of its level. -/
def hashLayer (zero : Bytes32) : List Bytes32 → List Bytes32
  | a :: b :: rest => hashNodes sha256 a b :: hashLayer zero rest
  | [a] => [hashNodes sha256 a zero]
  | [] => []

/-- `merkleize`. -/
def merkleize (chunks : List Bytes32) (limit : Option ℕ) : Bytes32 :=
  let count := limit.getD chunks.length
  if count = 0 then zeroHash sha256 0
  else
    let depth := depthFor count
    if chunks = [] then zeroHash sha256 depth
    else
      let realDepth := depthFor chunks.length
      let layer := (List.range realDepth).foldl
        (fun layer level => hashLayer sha256 (zeroHash sha256 level) layer) chunks
      (List.range' realDepth (depth - realDepth)).foldl
        (fun root level => hashNodes sha256 root (zeroHash sha256 level)) (layer.headD zeroBytes32)

/-- `progressive`; each round takes a chunk at least, and `num_leaves * 4` does not wrap, since no
span holds that many chunks. -/
def progressive : (fuel : ℕ) → List Bytes32 → (numLeaves : ℕ) → Bytes32
  | 0, _, _ => zeroBytes32
  | fuel + 1, chunks, numLeaves =>
    if chunks = [] then zeroBytes32
    else hashNodes sha256 (merkleize sha256 (chunks.take numLeaves) (some numLeaves))
      (progressive fuel (chunks.drop numLeaves) (numLeaves * 4))

/-- `merkleize_progressive`. -/
def merkleizeProgressive (chunks : List Bytes32) : Bytes32 :=
  progressive sha256 (chunks.length + 1) chunks 1

/-- `root_u64`. -/
def rootU64 (v : U64) : Bytes32 := FixedBytes.load 32 (toLe 8 v.toNat)

/-- `mix_in_length`. -/
def mixInLength (root : Bytes32) (length : ℕ) : Bytes32 :=
  hashNodes sha256 root (rootU64 (BitVec.ofNat 64 length))

/-- The loop of `mix_in_active_fields`: a bit for each field.  The node has room for 256 of them. -/
def activeBits (numFields : ℕ) : Bytes32 :=
  (List.range numFields).foldl (fun bits i =>
    ⟨bits.val.set (i / 8) (bits.val.getD (i / 8) 0 ||| UInt8.ofNat (2 ^ (i % 8))),
      by rw [List.length_set, bits.2]⟩) zeroBytes32

/-- `mix_in_active_fields`. -/
def mixInActiveFields (root : Bytes32) (numFields : ℕ) : Bytes32 :=
  hashNodes sha256 root (activeBits numFields)

/-- `root_bytes_fixed`. -/
def rootBytesFixed (bytes : Bytes) : Bytes32 :=
  if bytes.length ≤ 32 then FixedBytes.load 32 bytes else merkleize sha256 (pack bytes) none

/-- `root_byte_list`; the sum is one of `size_t`, of 64 bits. -/
def rootByteList (bytes : Bytes) (limit : ℕ) : Bytes32 :=
  mixInLength sha256 (merkleize sha256 (pack bytes) (some ((limit + 31) % 2 ^ 64 / 32))) bytes.length

/-- `root_progressive_bytes`. -/
def rootProgressiveBytes (bytes : Bytes) : Bytes32 :=
  mixInLength sha256 (merkleizeProgressive sha256 (pack bytes)) bytes.length

/-- `root_progressive_list`. -/
def rootProgressiveList (itemRoots : List Bytes32) : Bytes32 :=
  mixInLength sha256 (merkleizeProgressive sha256 itemRoots) itemRoots.length

/-- `root_container`. -/
def rootContainer (fieldRoots : List Bytes32) : Bytes32 := merkleize sha256 fieldRoots none

/-- `root_progressive_container`. -/
def rootProgressiveContainer (fieldRoots : List Bytes32) : Bytes32 :=
  mixInActiveFields sha256 (merkleizeProgressive sha256 fieldRoots) fieldRoots.length

end

end Zilkworm.Ssz
