/-
# The roots in a block's header

The transactions root of a block is the canonical root of the list of its unwrapped transactions,
whether `compute_transaction_root` takes the bytes the decoder has kept or encodes anew
(`listRoots_canonical`).
-/
import Zilkworm.Protocol.Validation
import Zilkworm.Trie.ListRoot
import Zilkworm.Types.BlockRoundTrip

namespace Zilkworm.Protocol

open List Lib Rlp Zilkworm.Types State Chain Trie

/-- The transactions root is the root of the unwrapped encodings, whether they were kept by the
decoder or are made anew. -/
theorem computeTransactionRoot_eq (keccak256 : Bytes → Bytes32) {block : Block}
    (h : ∀ t ∈ block.transactions, t.rlpEncoded ≠ [] → t.rlpEncoded = t.encode false) :
    computeTransactionRoot keccak256 block =
      Trie.vectorRoot keccak256 (block.transactions.map (·.encode false)) := by
  unfold computeTransactionRoot
  split
  · next hall =>
    congr 1
    refine map_congr_left fun t ht => h t ht ?_
    simpa using all_eq_true.mp hall t ht
  · rfl

/-- The transactions of a decoded block keep views of their own encodings. -/
theorem decodeBlock_viewsAgree {mode : Leftover} {src rest : Bytes} {block : Block}
    (h : decodeBlock mode src = .ok (block, rest)) : ∀ t ∈ block.transactions, t.ViewsAgree := by
  simp only [decodeBlock, bind_eq_ok, rejectIf_eq_ok, pure_eq_ok, Prod.mk.injEq, Prod.exists] at h
  obtain ⟨_, _, -, -, -, -, -, _, _, -, txs, _, htxs, _, _, -, _, _, -, -, -, rfl, -⟩ := h
  exact decodeVector_forall (fun _ _ _ ht => .of_decode ht (rawTyped_of_string ht)) htxs

/-- **The roots of lists are canonical.**  `root_hash` feeds each index of the list once, its keys
ascend and none is a prefix of another, and what it returns is the root of the map from the indices'
keys to the encodings of the elements; and `compute_transaction_root` returns that root for the
unwrapped encodings of the transactions, by either path. -/
theorem listRoots_canonical (keccak256 : Bytes → Bytes32) {α : Type} (encode : α → Bytes) (v : List α)
    (hv : v.length < 2 ^ 64) (block : Block) (hviews : ∀ t ∈ block.transactions, t.ViewsAgree)
    (hblock : block.transactions.length < 2 ^ 64) :
    (((range v.length).map fun j => adjustIndexForRlp j v.length).Perm (range v.length) ∧
      ((range v.length).map fun j => indexKey (adjustIndexForRlp j v.length)).Pairwise Before ∧
      ∃ t, IsTrieOf t (indexMap (v.map encode)) ∧ rootHash keccak256 encode v = mptRoot keccak256 t) ∧
    ∃ t, IsTrieOf t (indexMap (block.transactions.map (·.encode false))) ∧
      computeTransactionRoot keccak256 block = mptRoot keccak256 t := by
  constructor
  · refine ⟨adjusted_perm v.length, before_adjusted hv, ?_⟩
    rw [rootHash_eq]
    exact vectorRoot_isRoot (by rwa [length_map])
  · rw [computeTransactionRoot_eq keccak256 fun t ht hne => ((hviews t ht).encoded).resolve_left hne]
    exact vectorRoot_isRoot (by rwa [length_map])

/-! ## A list of three numbers, and a block of one transaction -/

namespace Sample

/-- The numbers. -/
def numbers : List U64 := [1, 2, 300]

/-- A block with the empty legacy transaction, which was never decoded. -/
def block : Block := { transactions := [{}] }

/-- The encoding of that block. -/
def blockRlp : Bytes :=
  encodeList (block.header.encode ++ encodeList (({} : Transaction).encode true) ++ encodeList [])

/-- The block decoded, with the view of its transaction. -/
def decoded : Block := { transactions := [Transaction.withViews {}] }

/-- The root of the numbers. -/
def numbersRoot : Bytes32 :=
  Bytes32.ofNat 0x735f5dcfe827ddd07fe40a2e189668c983d76664aab16cb827fe291f7d7ab340

/-- The transactions root of the block. -/
def blockRoot : Bytes32 :=
  Bytes32.ofNat 0x3e4ac01481ba927571635cfe3aa4c12f7a5799477794ce9dfc4f35b65390df5f

/-- `keccak256` on the two root nodes. -/
def keccak256 (b : Bytes) : Bytes32 := if b.length = 44 then numbersRoot else blockRoot

end Sample

/-- The theorem at the numbers and at the block as it is decoded, with the roots it is about; the
root of the block that was never decoded is the same. -/
theorem listRoots_canonical_sample :
    decodeBlock .prohibit Sample.blockRlp = .ok (Sample.decoded, []) ∧
    rootHash Sample.keccak256 encodeUint Sample.numbers = Sample.numbersRoot ∧
    computeTransactionRoot Sample.keccak256 Sample.decoded = Sample.blockRoot ∧
    computeTransactionRoot Sample.keccak256 Sample.block = Sample.blockRoot ∧
    (∃ t, IsTrieOf t (indexMap (Sample.numbers.map encodeUint)) ∧
      rootHash Sample.keccak256 encodeUint Sample.numbers = mptRoot Sample.keccak256 t) ∧
    ∃ t, IsTrieOf t (indexMap (Sample.decoded.transactions.map (·.encode false))) ∧
      computeTransactionRoot Sample.keccak256 Sample.decoded = mptRoot Sample.keccak256 t := by
  have hdec : decodeBlock .prohibit Sample.blockRlp = .ok (Sample.decoded, []) := by decide +kernel
  have h := listRoots_canonical Sample.keccak256 encodeUint Sample.numbers (by decide) Sample.decoded
    (decodeBlock_viewsAgree hdec) (by decide)
  exact ⟨hdec, by decide +kernel, by decide +kernel, by decide +kernel, h.1.2.2, h.2⟩

end Zilkworm.Protocol
