/-
# The Merkle-Patricia root

What the roots of the state, of storage and of the lists of a block are roots of: the compressed
hexary trie of a map, its nodes encoded in RLP and named by their hashes.  The trie of a map is
unique (`Patricia.WF.unique`), and so its root is the canonical one.
-/
import Zilkworm.Lib.KeyOrder
import Zilkworm.Lib.Patricia
import Zilkworm.Trie.Node

namespace Zilkworm.Trie

open List Lib Rlp Zilkworm.Types State

/-- The hexary trie with byte strings at its leaves. -/
abbrev Mpt := Patricia 16 Bytes

variable (keccak256 : Bytes → Bytes32)

/-- The encoding of the node at the root of a trie.  A node refers to the ones below by their
encodings, or by their hashes when these are of 32 bytes or more. -/
def mptNode : Mpt → Bytes
  | .empty => [kEmptyStringCode]
  | .leaf path value => encodeLeaf path value
  | .ext path below =>
    encodeList (encodeBytes (encodePath (nibbleBytes path) false) ++ nodeRef keccak256 (mptNode below))
  | .branch children =>
    encodeList (((finRange 16).map fun i => nodeRef keccak256 (mptNode (children i))).flatten ++
      [kEmptyStringCode])

/-- The reference to a trie in the node above it. -/
def mptRef (t : Mpt) : Bytes := nodeRef keccak256 (mptNode keccak256 t)

/-- The canonical root of the map a trie holds. -/
def mptRoot (t : Mpt) : Bytes32 := if t.isEmpty then kEmptyRoot else keccak256 (mptNode keccak256 t)

/-- A trie of a map from keys to values. -/
def IsTrieOf (t : Mpt) (map : Nibbles → Option Bytes) : Prop := t.WF ∧ ∀ key, t.lookup key = map key

theorem IsTrieOf.unique {t t' : Mpt} {map : Nibbles → Option Bytes} (h : IsTrieOf t map)
    (h' : IsTrieOf t' map) :
    t = t' := h.1.unique h'.1 fun key => (h.2 key).trans (h'.2 key).symm

/-- The map of a list of leaves. -/
def leafMap (leaves : List (Nibbles × Bytes)) (key : Nibbles) : Option Bytes :=
  (leaves.find? fun l => l.1 = key).map Prod.snd

/-- The trie of a list of leaves. -/
def trieOf (leaves : List (Nibbles × Bytes)) : Mpt :=
  leaves.foldr (fun l t => t.set l.1 (some l.2)) .empty

/-- No key is a prefix of another. -/
def PrefixFree (leaves : List (Nibbles × Bytes)) : Prop :=
  leaves.Pairwise fun a b => ¬ a.1 <+: b.1 ∧ ¬ b.1 <+: a.1

theorem mem_of_leafMap {leaves : List (Nibbles × Bytes)} {key : Nibbles} {value : Bytes}
    (h : leafMap leaves key = some value) : (key, value) ∈ leaves := by
  obtain ⟨⟨k, v⟩, hfind, rfl⟩ := Option.map_eq_some_iff.mp h
  have hkey := find?_some hfind
  rw [decide_eq_true_eq] at hkey
  subst hkey
  exact mem_of_find?_eq_some hfind

/-- **A list of leaves has a trie.** -/
theorem trieOf_spec {leaves : List (Nibbles × Bytes)} (h : PrefixFree leaves) :
    IsTrieOf (trieOf leaves) (leafMap leaves) := by
  induction leaves with
  | nil => exact ⟨trivial, fun key => rfl⟩
  | cons l leaves ih =>
    obtain ⟨hl, htail⟩ := pairwise_cons.mp h
    obtain ⟨hwf, hlookup⟩ := ih htail
    refine ⟨hwf.set l.1 (some l.2), fun key => ?_⟩
    have hset := @Patricia.lookup_set _ _ _ hwf l.1 (some l.2) ?_ key
    · refine hset.trans ?_
      rw [leafMap, find?_cons]
      by_cases hk : key = l.1
      · subst hk
        simp
      · rw [if_neg hk, hlookup, leafMap]
        simp [Ne.symm hk]
    · intro k v hk hp
      rw [hlookup] at hk
      have := hl (k, v) (mem_of_leafMap hk)
      rcases hp with hp | hp
      · exact absurd hp this.1
      · exact absurd hp this.2

end Zilkworm.Trie
