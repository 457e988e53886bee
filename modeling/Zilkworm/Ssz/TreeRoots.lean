/-
# The Merkle roots are those of full trees

`merkleize` folds the chunks it has, level by level, and pairs what is left over with the root of
a zero subtree.  The result is the root of the full tree over the chunks and zeros up to the limit
(`merkleize_eq`).
-/
import Zilkworm.Lib.MerkleTree
import Zilkworm.Lib.Words
import Zilkworm.Ssz.Merkle
import Mathlib.Data.List.Basic

namespace Zilkworm.Ssz

open List Lib Rlp Zilkworm.Types

variable {chunks : List Bytes32}

/-- Chunk `i` of a byte string, filled up with zeros. -/
def chunkAt (bytes : Bytes) (i : ℕ) : Bytes32 := FixedBytes.load 32 (slice bytes (i * 32) 32)

/-- A number as a chunk, least significant byte first. -/
def numberNode (n : ℕ) : Bytes32 := ⟨toLe 32 n, toLe_length 32 n⟩

section

variable (sha256 : Bytes → Bytes32)

theorem hashLayer_eq (zero : Bytes32) (layer : List Bytes32) :
    hashLayer sha256 zero layer = pairs (hashNodes sha256) zero layer := by
  induction layer using pairs.induct with
  | case1 a b rest ih => rw [hashLayer, pairs, ih]
  | case2 a => rfl
  | case3 => rfl

/-- The levels `l, l + 1, …` of `merkleize`. -/
def layers (l r : ℕ) (chunks : List Bytes32) : List Bytes32 :=
  (List.range' l r).foldl (fun layer level => hashLayer sha256 (zeroHash sha256 level) layer) chunks

/-- A round of the loop hashes one level of pairs. -/
theorem layers_succ (l r : ℕ) (chunks : List Bytes32) : layers sha256 l (r + 1) chunks =
    layers sha256 (l + 1) r (pairs (hashNodes sha256) (zeroHash sha256 l) chunks) := by
  rw [← hashLayer_eq]
  rfl

/-- **Folding levels keeps the root.** -/
theorem treeRoot_layers (l r m : ℕ) (chunks : List Bytes32) :
    treeRoot (hashNodes sha256) (r + m) (paddedLeaf (zeroHash sha256 l) chunks) =
      treeRoot (hashNodes sha256) m
        (paddedLeaf (zeroHash sha256 (l + r)) (layers sha256 l r chunks)) := by
  induction r generalizing l chunks with
  | zero => rw [Nat.zero_add]; rfl
  | succ r ih =>
    rw [Nat.add_right_comm, treeRoot_pairs, layers_succ, ← Nat.add_assoc, Nat.add_right_comm]
    exact ih (l + 1) _

theorem length_layers (l r : ℕ) (hpos : 0 < chunks.length) (hle : chunks.length ≤ 2 ^ r) :
    (layers sha256 l r chunks).length = 1 := by
  induction r generalizing l chunks with
  | zero => exact Nat.le_antisymm hle hpos
  | succ r ih =>
    rw [Nat.pow_succ] at hle
    rw [layers_succ]
    exact ih _ (by rw [length_pairs]; omega) (by rw [length_pairs]; omega)

theorem layers_singleton (l r : ℕ) (x : Bytes32) : layers sha256 l r [x] =
    [(List.range' l r).foldl (fun root level => hashNodes sha256 root (zeroHash sha256 level)) x] :=
  foldl_hom (fun x => [x]) fun _ _ => rfl

/-- **`merkleize` is the root of the full tree.** -/
theorem merkleize_eq {limit : Option ℕ} (h : chunks.length ≤ limit.getD chunks.length) :
    merkleize sha256 chunks limit =
      treeRoot (hashNodes sha256) (Nat.clog 2 (limit.getD chunks.length))
        (paddedLeaf zeroBytes32 chunks) := by
  unfold merkleize
  dsimp only
  generalize limit.getD chunks.length = count at h ⊢
  split_ifs with h0 hnil
  · obtain rfl : chunks = [] := eq_nil_of_length_eq_zero (by omega)
    rw [h0]
    rfl
  · have hzero := treeRoot_layers sha256 0 (depthFor count) 0 []
    rw [layers, foldl_fixed' fun _ => rfl, Nat.zero_add] at hzero
    rw [hnil]
    exact hzero.symm
  · have hle : depthFor chunks.length ≤ depthFor count := Nat.clog_mono_right 2 h
    obtain ⟨x, hx⟩ := length_eq_one_iff.mp (length_layers sha256 0 (depthFor chunks.length)
      (length_pos_iff.mpr hnil) (Nat.le_pow_clog (by decide) _))
    -- the real levels end in one node, which the levels above fold on as a list of one
    have hreal := treeRoot_layers sha256 0 (depthFor chunks.length)
      (depthFor count - depthFor chunks.length) chunks
    have habove :=
      treeRoot_layers sha256 (depthFor chunks.length) (depthFor count - depthFor chunks.length) 0 [x]
    rw [Nat.add_sub_cancel' hle, hx, Nat.zero_add] at hreal
    rw [layers_singleton] at habove
    rw [range_eq_range', show List.foldl _ _ _ = [x] from hx]
    exact (hreal.trans habove).symm

theorem progressive_eq (fuel k : ℕ) (h : chunks.length - subtreeStart k < fuel) :
    progressive sha256 fuel (chunks.drop (subtreeStart k)) (4 ^ k) =
      progressiveRoot (hashNodes sha256) zeroBytes32 chunks k := by
  induction fuel generalizing k with
  | zero => omega
  | succ fuel ih =>
    have hpow : 4 ^ k = 2 ^ (2 * k) := by rw [Nat.pow_mul]
    have hpos := Nat.pow_pos (n := k) (by decide : 0 < 4)
    rw [progressive, progressiveRoot]
    simp only [drop_eq_nil_iff]
    split_ifs with hend
    · rfl
    · rw [drop_drop, ← Nat.pow_succ, ← ih (k + 1) (by rw [subtreeStart]; omega),
        merkleize_eq sha256 (length_take_le _ _), Option.getD_some, hpow,
        Nat.clog_pow 2 _ (by decide), ← hpow]
      congr 1
      refine treeRoot_congr _ fun i hi => ?_
      rw [paddedLeaf, paddedLeaf, getD_eq_getElem?_getD, getElem?_take_of_lt (hpow ▸ hi), getElem?_drop,
        getD_eq_getElem?_getD]

/-- `merkleize_progressive` is the root of the subtrees of 1, 4, 16, … leaves. -/
theorem merkleizeProgressive_eq (chunks : List Bytes32) : merkleizeProgressive sha256 chunks =
    progressiveRoot (hashNodes sha256) zeroBytes32 chunks 0 :=
  progressive_eq sha256 (chunks.length + 1) 0 (by rw [subtreeStart]; omega)

end

/-- The chunks of a byte string are its 32-byte parts, padded with zeros. -/
theorem paddedLeaf_pack (bytes : Bytes) : paddedLeaf zeroBytes32 (pack bytes) = chunkAt bytes := by
  funext i
  rw [paddedLeaf, pack, getD_eq_getElem?_getD, getElem?_map]
  by_cases hi : i < (bytes.length + 31) / 32
  · rw [getElem?_range hi]
    rfl
  · have hend : slice bytes (i * 32) 32 = [] := by rw [slice, drop_of_length_le (by omega), take_nil]
    rw [getElem?_eq_none (by rw [length_range]; omega), chunkAt, hend]
    rfl

theorem length_pack (bytes : Bytes) : (pack bytes).length = (bytes.length + 31) / 32 := by
  rw [pack, length_map, length_range]

theorem rootU64_ofNat {n : ℕ} (h : n < 2 ^ 64) : rootU64 (BitVec.ofNat 64 n) = numberNode n := by
  apply Subtype.ext
  have hbytes : toLe 32 n = toLe 8 n ++ toLe 24 (n / 2 ^ 64) := toLe_add 8 24 n
  rw [Nat.div_eq_of_lt h] at hbytes
  rw [rootU64, BitVec.toNat_ofNat, Nat.mod_eq_of_lt h]
  exact hbytes.symm

theorem activeBits_eq {n : ℕ} (h : n ≤ 256) : activeBits n = numberNode (2 ^ n - 1) := by
  have hstep : ∀ i < 256, ((toLe 32 (2 ^ i - 1)).set (i / 8) ((toLe 32 (2 ^ i - 1)).getD (i / 8) 0 |||
      UInt8.ofNat (2 ^ (i % 8)))) = toLe 32 (2 ^ (i + 1) - 1) := by decide +kernel
  induction n with
  | zero => rfl
  | succ n ih =>
    rw [activeBits, range_succ, foldl_append, ← activeBits, ih (by omega)]
    exact Subtype.ext (hstep n h)

/-- **The roots follow their definitions**, for limits of at most `2 ^ 63`, up to which `bit_ceil`
is defined and no sum wraps.  A byte string is taken in chunks of 32, a list has its length mixed
in, and a progressive container a bit for each of its fields, 256 at most. -/
theorem merkleRoots_spec (sha256 : Bytes → Bytes32) :
    let node := hashNodes sha256
    let progressive chunks := progressiveRoot node zeroBytes32 chunks 0
    (∀ chunks limit, chunks.length ≤ limit → limit ≤ 2 ^ 63 → merkleize sha256 chunks (some limit) =
      treeRoot node (Nat.clog 2 limit) (paddedLeaf zeroBytes32 chunks)) ∧
    (∀ chunks, merkleizeProgressive sha256 chunks = progressive chunks) ∧
    (∀ bytes, rootBytesFixed sha256 bytes =
      treeRoot node (Nat.clog 2 ((bytes.length + 31) / 32)) (chunkAt bytes)) ∧
    (∀ bytes limit, bytes.length ≤ limit → limit ≤ 2 ^ 63 → rootByteList sha256 bytes limit =
      node (treeRoot node (Nat.clog 2 ((limit + 31) / 32)) (chunkAt bytes)) (numberNode bytes.length)) ∧
    (∀ bytes, bytes.length < 2 ^ 64 →
      rootProgressiveBytes sha256 bytes = node (progressive (pack bytes)) (numberNode bytes.length)) ∧
    (∀ roots, roots.length < 2 ^ 64 →
      rootProgressiveList sha256 roots = node (progressive roots) (numberNode roots.length)) ∧
    (∀ roots, rootContainer sha256 roots =
      treeRoot node (Nat.clog 2 roots.length) (paddedLeaf zeroBytes32 roots)) ∧
    (∀ roots, roots.length ≤ 256 → rootProgressiveContainer sha256 roots =
      node (progressive roots) (numberNode (2 ^ roots.length - 1))) := by
  refine ⟨fun chunks limit h _ => merkleize_eq sha256 h, merkleizeProgressive_eq sha256, fun bytes => ?_,
    fun bytes limit h hmax => ?_, fun bytes h64 => ?_, fun roots h64 => ?_,
    fun roots => merkleize_eq sha256 le_rfl, fun roots h => ?_⟩
  · rw [rootBytesFixed]
    split_ifs with hlen
    · have hclog : Nat.clog 2 ((bytes.length + 31) / 32) = 0 := Nat.clog_of_right_le_one (by omega) 2
      rw [hclog, treeRoot, chunkAt, Nat.zero_mul, slice, drop_zero, take_of_length_le hlen]
    · rw [merkleize_eq sha256 le_rfl, Option.getD_none, length_pack, paddedLeaf_pack]
  · rw [rootByteList, mixInLength, rootU64_ofNat (by omega), Nat.mod_eq_of_lt (by omega),
      merkleize_eq sha256 (by rw [length_pack, Option.getD_some]; omega), Option.getD_some,
      paddedLeaf_pack]
  · rw [rootProgressiveBytes, mixInLength, rootU64_ofNat h64, merkleizeProgressive_eq]
  · rw [rootProgressiveList, mixInLength, rootU64_ofNat h64, merkleizeProgressive_eq]
  · rw [rootProgressiveContainer, mixInActiveFields, activeBits_eq h, merkleizeProgressive_eq]

/-- With a hash that keeps the first node, the root of a tree is its first leaf. -/
theorem treeRoot_first (d : ℕ) (leaf : ℕ → Bytes32) :
    treeRoot (hashNodes (FixedBytes.load 32)) d leaf = leaf 0 := by
  have hfirst : ∀ a b : Bytes32, hashNodes (FixedBytes.load 32) a b = a := fun a b =>
    Subtype.ext ((FixedBytes.load_val (by rw [length_append, a.2]; omega)).trans (take_left' a.2))
  induction d generalizing leaf with
  | zero => rfl
  | succ d ih => rw [treeRoot, hfirst, ih]

/-- **A limit near the top wraps**: `root_byte_list` then takes every byte string for a list of
zeros. For a hash that keeps the first node, the root of the list of one byte is not the one
defined. -/
theorem rootByteList_wraps :
    rootByteList (FixedBytes.load 32) [1] (2 ^ 64 - 31) ≠
      hashNodes (FixedBytes.load 32) (treeRoot (hashNodes (FixedBytes.load 32))
        (Nat.clog 2 ((2 ^ 64 - 31 + 31) / 32)) (chunkAt [1])) (numberNode 1) := by
  rw [treeRoot_first]
  decide +kernel

end Zilkworm.Ssz
