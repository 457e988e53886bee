/-
# The state root is canonical

`state_root_hash` and `account_storage_root` gather their leaves in a `std::map` and feed them to
the hash builder in the order of the hashes.  Hashes of one length that differ part at a byte, so
the builder is given ascending keys none of which is a prefix of another, and the root is the
canonical one of the map that was gathered.
-/
import Zilkworm.State.DirectState
import Zilkworm.Trie.ListRoot

namespace Zilkworm.State

open List Lib Rlp Zilkworm.Types Trie

variable (keccak256 : Bytes → Bytes32)

/-- A leaf under the nibbles of its hash. -/
def keyed (p : Bytes32 × Bytes) : Nibbles × Bytes := (nibblesOfBytes p.1.val, p.2)

/-- The map a `std::map` holds after the assignments: the last one to a key counts. -/
def gathered (pairs : List (Bytes32 × Bytes)) :
    Nibbles → Option Bytes := leafMap (pairs.reverse.map keyed)

theorem before_of_lt {a b : Bytes32} (h : a.val < b.val) :
    Before (nibblesOfBytes a.val) (nibblesOfBytes b.val) := by
  rcases List.lt_iff_exists.mp h with ⟨-, hlen⟩ | ⟨i, ha, hb, heq, hlt⟩
  · rw [a.2, b.2] at hlen
    omega
  · have hfront : a.val.take i = b.val.take i := by
      refine ext_getElem (by simp [a.2, b.2]) fun j hj _ => ?_
      rw [getElem_take, getElem_take]
      exact heq j (by rw [length_take] at hj; omega)
    rw [← take_append_drop i a.val, ← take_append_drop i b.val, hfront, drop_eq_getElem_cons ha,
      drop_eq_getElem_cons hb]
    exact before_nibbles _ hlt

/-- The nibbles of a hash tell the hash. -/
theorem nibblesOfBytes_inj {a b : Bytes32} (h : nibblesOfBytes a.val = nibblesOfBytes b.val) :
    a = b := by
  have hlt : ∀ {c d : Bytes32}, nibblesOfBytes c.val = nibblesOfBytes d.val →
      ¬ c.val < d.val := fun {c d} heq hcd => by
    have hbefore := before_of_lt hcd
    rw [heq] at hbefore
    exact hbefore.asymm hbefore
  exact Subtype.ext (List.le_antisymm (hlt h.symm) (hlt h))

theorem lookup_gathered (pairs : List (Bytes32 × Bytes)) (k : Bytes32) :
    (pairs.foldl (fun (m : HashMap Bytes) p => m.insert p.1 p.2) ∅).lookup k =
      gathered pairs (nibblesOfBytes k.val) := by
  rw [foldl_eq_foldr_reverse, gathered]
  induction pairs.reverse with
  | nil => rfl
  | cons p rest ih =>
    rw [foldr_cons, map_cons, leafMap]
    by_cases hk : k = p.1
    · subst hk
      rw [AList.lookup_insert, find?_cons_of_pos (by simp [keyed])]
      rfl
    · have hne : (keyed p).1 ≠ nibblesOfBytes k.val := fun heq => hk (nibblesOfBytes_inj heq).symm
      rw [AList.lookup_insert_ne hk, ih, find?_cons_of_neg (by rwa [decide_eq_true_iff]), leafMap]

/-- **The root of gathered leaves** is the canonical root of their map. -/
theorem rootOfLeaves_sortedLeaves (pairs : List (Bytes32 × Bytes)) :
    ∃ t, IsTrieOf t (gathered pairs) ∧
      rootOfLeaves keccak256 (DirectState.sortedLeaves pairs) = mptRoot keccak256 t := by
  set m := pairs.foldl (fun (m : HashMap Bytes) p => m.insert p.1 p.2) ∅
  set sorted := DirectState.ascending m
  have hperm : sorted.Perm m.entries := perm_insertionSort _ _
  have hsorted : (sorted.map fun e => keyed (e.1, e.2)).Pairwise fun a b => Before a.1 b.1 := by
    have hne : sorted.Pairwise fun a b => a.1 ≠ b.1 :=
      hperm.symm.pairwise (nodupKeys_iff_pairwise.mp m.nodupKeys) fun h => h.symm
    refine pairwise_map.mpr (((pairwise_insertionSort _ _).and hne).imp fun h => ?_)
    exact before_of_lt (Decidable.not_not.mp fun hnlt => h.2 (Subtype.ext (List.le_antisymm h.1 hnlt)))
  have hmap : leafMap (sorted.map fun e => keyed (e.1, e.2)) = gathered pairs := by
    funext key
    refine Option.ext fun value => ?_
    rw [leafMap_eq_some (ne_of_before hsorted)]
    constructor
    · intro h
      obtain ⟨e, he, heq⟩ := mem_map.mp h
      cases heq
      rw [← lookup_gathered]
      exact AList.mem_lookup_iff.mpr (hperm.mem_iff.mp he)
    · intro h
      obtain ⟨p, -, heq⟩ := mem_map.mp (mem_of_leafMap h)
      cases heq
      have hlook := (lookup_gathered pairs p.1).trans h
      exact mem_map.mpr ⟨⟨p.1, p.2⟩, hperm.mem_iff.mpr (AList.mem_lookup_iff.mp hlook), rfl⟩
  have ht := trieOf_spec (prefixFree_of_before hsorted)
  refine ⟨_, hmap ▸ ht, ?_⟩
  rw [← rootOfLeaves_eq _ hsorted ht]
  · simp only [DirectState.sortedLeaves, unpackNibbles_eq, map_map]
    rfl
  · intro l hl
    obtain ⟨e, -, rfl⟩ := mem_map.mp hl
    have hlen := e.1.2
    rcases hb : e.1.val with _ | ⟨b, rest⟩
    · rw [hb] at hlen
      cases hlen
    · simp [keyed, hb, nibblesOfBytes, nibblesOf]

namespace DirectState

/-- The leaves of the live slots of an address, in the order of the slots' keys. -/
def slotLeaves (s : DirectState) (addr : Address) : List (Bytes32 × Bytes) :=
  (ascending (s.liveSlots addr)).map fun e => (keccak256 e.1.val, encodeBytes (zerolessView e.2))

/-- The leaves of the live accounts: the witness's records, then the created ones. -/
def accountLeaves (s : DirectState) : List (Bytes32 × Bytes) :=
  let created : List Account := s.createdAccounts.entries.map fun e => { e.2 with addr := e.1 }
  ((s.witness.offsets.map s.records ++ created).filter fun pa => !pa.deleted).map fun pa =>
    (keccak256 pa.addr.val, pa.rlp (s.accountStorageRoot keccak256 pa.addr))

/-- **The roots of a state are canonical**, in every state: `state_root_hash` is the root of the
trie of the live accounts' leaves, and the storage root in each of them that of the trie of its live
slots. -/
theorem stateRootHash_canonical (s : DirectState) :
    (∃ t, IsTrieOf t (gathered (s.accountLeaves keccak256)) ∧
      s.stateRootHash keccak256 = some (mptRoot keccak256 t)) ∧
    ∀ addr, ∃ t, IsTrieOf t (gathered (s.slotLeaves keccak256 addr)) ∧
      s.accountStorageRoot keccak256 addr = mptRoot keccak256 t := by
  have hempty : rootOfLeaves keccak256 (sortedLeaves []) = kEmptyRoot := rfl
  constructor
  · obtain ⟨t, ht, hroot⟩ := rootOfLeaves_sortedLeaves keccak256 (s.accountLeaves keccak256)
    refine ⟨t, ht, ?_⟩
    rw [← hroot, stateRootHash, accountLeaves]
    dsimp only
    split_ifs with hlive
    · rw [hlive, map_nil, hempty]
    · rfl
  · intro addr
    obtain ⟨t, ht, hroot⟩ := rootOfLeaves_sortedLeaves keccak256 (s.slotLeaves keccak256 addr)
    refine ⟨t, ht, ?_⟩
    rw [← hroot, accountStorageRoot, slotLeaves]
    split_ifs with hlive
    · rw [hlive, map_nil, hempty]
    · rfl

end DirectState

end Zilkworm.State
