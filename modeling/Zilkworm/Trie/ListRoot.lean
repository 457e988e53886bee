/-
# The roots of lists

`core/trie/vector_root.hpp`: the trie of a list is keyed by the RLP encodings of its indices.  Index
zero encodes as `0x80`, behind `0x7f`, so `root_hash` feeds the indices to the builder in the order
`adjust_index_for_rlp` gives; and it keeps the encoded values in two buffers that take turns, since
the builder only borrows the value of its pending leaf.

In that order the keys ascend and none is a prefix of another (`before_adjusted`), so the root is
that of the map from the indices' keys to the values (`vectorRoot_isRoot`).
-/
import Zilkworm.Trie.HashBuilderRoot

namespace Zilkworm.Trie

open List Lib Rlp Zilkworm.Types State

variable {i j n : ℕ} {values : List Bytes}

/-! ## The builder on any leaves -/

section Leaves

variable {leaves : List (Nibbles × Bytes)}

/-- Leaves with different keys hold their map. -/
theorem leafMap_eq_some (hkeys : leaves.Pairwise fun a b => a.1 ≠ b.1) {key : Nibbles} {value : Bytes} :
    leafMap leaves key = some value ↔ (key, value) ∈ leaves := by
  refine ⟨mem_of_leafMap, fun h => ?_⟩
  induction leaves with
  | nil => cases h
  | cons l leaves ih =>
    obtain ⟨hfirst, htail⟩ := pairwise_cons.mp hkeys
    rw [leafMap, find?_cons]
    rcases mem_cons.mp h with rfl | hin
    · simp
    · rw [decide_eq_false (hfirst _ hin)]
      exact ih htail hin

/-- The order of the leaves does not matter. -/
theorem leafMap_perm {leaves' : List (Nibbles × Bytes)} (hperm : leaves.Perm leaves')
    (hkeys : leaves.Pairwise fun a b => a.1 ≠ b.1) : leafMap leaves = leafMap leaves' := by
  have hkeys' : leaves'.Pairwise fun a b => a.1 ≠ b.1 := hperm.pairwise hkeys fun h => Ne.symm h
  funext key
  refine Option.ext fun value => ?_
  rw [leafMap_eq_some hkeys, leafMap_eq_some hkeys', hperm.mem_iff]

theorem ne_of_before (hsorted : leaves.Pairwise fun a b => Before a.1 b.1) :
    leaves.Pairwise fun a b => a.1 ≠ b.1 :=
  hsorted.imp fun {a b} h heq => by
    rw [heq] at h
    exact Before.asymm h h

theorem prefixFree_of_before (hsorted : leaves.Pairwise fun a b => Before a.1 b.1) : PrefixFree leaves :=
  hsorted.imp fun h => Before.not_isPrefix h

/-- **The builder computes the canonical root** of ascending leaves none of whose keys is a prefix
of another. -/
theorem rootOfLeaves_eq {keccak256 : Bytes → Bytes32} {t : Mpt} (hkeys : ∀ l ∈ leaves, l.1 ≠ [])
    (hsorted : leaves.Pairwise fun a b => Before a.1 b.1) (ht : IsTrieOf t (leafMap leaves)) :
    rootOfLeaves keccak256 (leaves.map fun l => (nibbleBytes l.1, l.2)) = mptRoot keccak256 t := by
  have hmem (key : Nibbles) (value : Bytes) : t.lookup key = some value ↔ (key, value) ∈ leaves := by
    rw [ht.2, leafMap_eq_some (ne_of_before hsorted)]
  rw [rootOfLeaves, foldl_map]
  cases leaves with
  | nil =>
    obtain rfl : t = .empty := ht.unique (trieOf_spec Pairwise.nil)
    rfl
  | cons l leaves =>
    obtain ⟨hfirst, -⟩ := pairwise_cons.mp hsorted
    have hpending : Pending keccak256 t l.1 l.2
        (({} : HashBuilder).addLeaf keccak256 (nibbleBytes l.1) l.2) := by
      refine Pending.first ht.1 (fun key v hk hbefore => ?_) l.2
      rcases mem_cons.mp ((hmem key v).mp hk) with heq | hin
      · cases heq
        exact hbefore.asymm hbefore
      · exact hbefore.asymm (hfirst _ hin)
    refine hpending.run ht.1 (hkeys l mem_cons_self) hsorted (fun l' hl' => (hmem _ _).mpr hl')
      fun key v hk hbefore => ?_
    rcases mem_cons.mp ((hmem key v).mp hk) with heq | hin
    · cases heq
      exact absurd hbefore fun h => h.asymm h
    · exact hin

/-- **The root of ascending leaves is canonical**, whatever the keys' lengths. -/
theorem hashBuilder_canonical (keccak256 : Bytes → Bytes32) (hkeys : ∀ l ∈ leaves, l.1 ≠ [])
    (hsorted : leaves.Pairwise fun a b => Before a.1 b.1) : ∃ t, IsTrieOf t (leafMap leaves) ∧
      rootOfLeaves keccak256 (leaves.map fun l => (nibbleBytes l.1, l.2)) = mptRoot keccak256 t := by
  have ht := trieOf_spec (prefixFree_of_before hsorted)
  exact ⟨_, ht, rootOfLeaves_eq hkeys hsorted ht⟩

theorem hashBuilder_canonical_two : ∃ t, IsTrieOf t (leafMap [([1], [7]), ([2, 3], [9])]) ∧
    rootOfLeaves (fun _ => zeroBytes32) [([1], [7]), ([2, 3], [9])] = mptRoot (fun _ => zeroBytes32) t :=
  hashBuilder_canonical _ (by decide) (pairwise_pair.mpr ⟨0, rfl, 1, 2, rfl, rfl, by decide⟩)

end Leaves

/-! ## Keys in the order of their bytes -/

/-- The nibbles of a byte string. -/
def nibblesOfBytes (b : Bytes) : Nibbles := b.flatMap nibblesOf

theorem unpackNibbles_eq (b : Bytes) : unpackNibbles b = nibbleBytes (nibblesOfBytes b) := by
  have hbyte (x : UInt8) : [x >>> 4, x &&& 0x0F] = nibbleBytes (nibblesOf x) := by
    have hlow : (x &&& 0x0F).toNat = x.toNat % 16 := by
      exact Nat.and_two_pow_sub_one_eq_mod x.toNat 4
    have hhigh : (x >>> 4).toNat = x.toNat / 16 := by
      exact Nat.shiftRight_eq_div_pow x.toNat 4
    have := x.toNat_lt
    congr 1
    · refine UInt8.toNat_inj.mp ?_
      rw [hhigh, UInt8.toNat_ofNat']
      exact (Nat.mod_eq_of_lt (show x.toNat / 16 < 2 ^ 8 by omega)).symm
    · congr 1
      refine UInt8.toNat_inj.mp ?_
      rw [hlow, UInt8.toNat_ofNat']
      exact (Nat.mod_eq_of_lt (show x.toNat % 16 < 2 ^ 8 by omega)).symm
  induction b with
  | nil => rfl
  | cons x b ih =>
    rw [nibblesOfBytes, flatMap_cons, nibbleBytes, map_append, unpackNibbles, flatMap_cons, hbyte]
    exact congrArg _ ih

/-- Two byte strings that part at a byte. -/
theorem before_nibbles (front : Bytes) {a b : Bytes} {x y : UInt8} (hxy : x.toNat < y.toNat) :
    Before (nibblesOfBytes (front ++ x :: a)) (nibblesOfBytes (front ++ y :: b)) := by
  simp only [nibblesOfBytes, flatMap_append, flatMap_cons, nibblesOf, cons_append, nil_append]
  rcases Nat.lt_or_ge (x.toNat / 16) (y.toNat / 16) with h | h
  · exact ⟨_, PartAt.of_cons (Fin.mk_lt_mk.mpr h)⟩
  · -- the high nibbles agree
    have heq : x.toNat / 16 = y.toNat / 16 := le_antisymm (Nat.div_le_div_right hxy.le) h
    have hlow : x.toNat % 16 < y.toNat % 16 := by omega
    have hpart :=
      @PartAt.of_cons _ _ (front.flatMap nibblesOf ++ [⟨x.toNat / 16, by have := x.toNat_lt; omega⟩])
      (a.flatMap nibblesOf) (b.flatMap nibblesOf) _ _
      (Fin.mk_lt_mk.mpr hlow : (⟨x.toNat % 16, Nat.mod_lt _ (by decide)⟩ : Fin 16) <
        ⟨y.toNat % 16, Nat.mod_lt _ (by decide)⟩)
    rw [append_assoc, append_assoc] at hpart
    have hfin : (⟨x.toNat / 16, by have := x.toNat_lt; omega⟩ : Fin 16) =
        ⟨y.toNat / 16, by have := y.toNat_lt; omega⟩ :=
      Fin.ext heq
    rw [← hfin]
    exact ⟨_, hpart⟩

theorem beNat_cons (x : UInt8) (a : Bytes) : beNat (x :: a) = x.toNat * 256 ^ a.length + beNat a := by
  rw [beNat, reverse_cons, leNat_append, length_reverse, beNat, leNat, leNat, Nat.mul_zero, Nat.add_zero,
    Nat.mul_comm, Nat.add_comm]

/-- Numbers of the same length part where they differ first. -/
theorem split_of_beNat_lt {a b : Bytes} (hlen : a.length = b.length) (h : beNat a < beNat b) :
    ∃ front x y a' b', a = front ++ x :: a' ∧ b = front ++ y :: b' ∧ x.toNat < y.toNat := by
  induction a generalizing b with
  | nil =>
    obtain rfl := eq_nil_of_length_eq_zero hlen.symm
    exact absurd h (lt_irrefl _)
  | cons x a ih =>
    obtain ⟨y, b, rfl⟩ := exists_cons_of_length_eq_add_one hlen.symm
    have htail : a.length = b.length := by simpa using hlen
    rw [beNat_cons, beNat_cons, htail] at h
    rcases lt_trichotomy x.toNat y.toNat with hlt | heq | hgt
    · exact ⟨[], x, y, a, b, rfl, rfl, hlt⟩
    · obtain rfl := UInt8.toNat_inj.mp heq
      obtain ⟨front, u, v, a', b', rfl, rfl, huv⟩ := ih htail (by omega)
      exact ⟨x :: front, u, v, a', b', rfl, rfl, huv⟩
    · -- a larger first byte outweighs the rest
      have hb := beNat_lt b
      have hmul : (y.toNat + 1) * 256 ^ b.length ≤ x.toNat * 256 ^ b.length := Nat.mul_le_mul_right _ hgt
      rw [Nat.succ_mul] at hmul
      omega

/-! ## The keys of a list -/

/-- The key of an index. -/
def indexKey (i : ℕ) : Nibbles := nibblesOfBytes (encodeUint (BitVec.ofNat 64 i))

theorem indexKey_ne_nil (i : ℕ) : indexKey i ≠ [] := by
  intro h
  rw [indexKey, nibblesOfBytes, flatMap_eq_nil_iff] at h
  obtain ⟨x, hx⟩ := exists_mem_of_ne_nil _ (encodeUint_ne_nil (BitVec.ofNat 64 i))
  exact absurd (h x hx) (by simp [nibblesOf])

/-- The map of a list: the key of each index to the value there. -/
def indexMap (values : List Bytes) : Nibbles → Option Bytes :=
  leafMap ((range values.length).map fun i => (indexKey i, values.getD i []))

/-- Where an index stands among the keys: zero between `0x7f` and `0x80`. -/
def keyRank (i : ℕ) : ℕ := if i = 0 then 255 else 2 * i

/-- The encoding of an index from `0x80` on. -/
theorem encodeUint_large (hi : i < 2 ^ 64) (h : 0x80 ≤ i) :
    encodeUint (BitVec.ofNat 64 i) = UInt8.ofNat (0x80 + (toBigCompact i).length) :: toBigCompact i ∧
      0 < (toBigCompact i).length ∧ (toBigCompact i).length ≤ 8 := by
  have hlen : (toBigCompact i).length ≤ 8 := toBigCompact_length (by omega)
  have hpos : 0 < (toBigCompact i).length := by
    refine Nat.pos_of_ne_zero fun h0 => ?_
    have := beNat_toBigCompact i
    rw [eq_nil_of_length_eq_zero h0] at this
    simp only [beNat, reverse_nil, leNat] at this
    omega
  refine ⟨?_, hpos, hlen⟩
  have hheader : encodeHeader ⟨false, (toBigCompact i).length⟩ =
      [UInt8.ofNat (0x80 + (toBigCompact i).length)] := by
    rw [encodeHeader, if_pos (show (toBigCompact i).length < 56 by omega)]
    rfl
  simp only [encodeUint, BitVec.toNat_ofNat, Nat.mod_eq_of_lt hi]
  rw [if_neg (by omega), if_neg (by omega), hheader]
  rfl

/-- The encoding of an index below `0x80`. -/
theorem encodeUint_small (h : i < 0x80) :
    encodeUint (BitVec.ofNat 64 i) = [UInt8.ofNat (if i = 0 then 0x80 else i)] := by
  simp only [encodeUint, BitVec.toNat_ofNat, Nat.mod_eq_of_lt (show i < 2 ^ 64 by omega)]
  split_ifs
  · rfl
  · rfl

theorem before_indexKey (hi : i < 2 ^ 64) (hj : j < 2 ^ 64) (h : keyRank i < keyRank j) :
    Before (indexKey i) (indexKey j) := by
  unfold keyRank at h
  have hbyte (n : ℕ) (hn : n < 256) : (UInt8.ofNat n).toNat =
      n := by rw [UInt8.toNat_ofNat', Nat.mod_eq_of_lt hn]
  rcases Nat.lt_or_ge i 0x80 with hsi | hli
  · rcases Nat.lt_or_ge j 0x80 with hsj | hlj
    · rw [indexKey, indexKey, encodeUint_small hsi, encodeUint_small hsj]
      refine before_nibbles [] ?_
      rw [hbyte _ (by split_ifs <;> omega), hbyte _ (by split_ifs <;> omega)]
      split_ifs at h ⊢ <;> omega
    · obtain ⟨henc, hpos, hlen⟩ := encodeUint_large hj hlj
      rw [indexKey, indexKey, encodeUint_small hsi, henc]
      refine before_nibbles [] ?_
      rw [hbyte _ (by split_ifs <;> omega), hbyte _ (by omega)]
      split_ifs <;> omega
  · have hlj : 0x80 ≤ j := by split_ifs at h <;> omega
    obtain ⟨henci, hposi, hleni⟩ := encodeUint_large hi hli
    obtain ⟨hencj, hposj, hlenj⟩ := encodeUint_large hj hlj
    have hlt : i < j := by split_ifs at h <;> omega
    rw [indexKey, indexKey, henci, hencj]
    rcases Nat.lt_trichotomy (toBigCompact i).length (toBigCompact j).length with hl | hl | hl
    · refine before_nibbles [] ?_
      rw [hbyte _ (by omega), hbyte _ (by omega)]
      omega
    · -- numbers of one length
      obtain ⟨front, x, y, a, b, ha, hb, hxy⟩ :=
        split_of_beNat_lt hl (by rw [beNat_toBigCompact, beNat_toBigCompact]; exact hlt)
      rw [hl, ha, hb]
      exact before_nibbles (_ :: front) hxy
    · have hle : j < 256 ^ (toBigCompact j).length := by
        have := beNat_lt (toBigCompact j)
        rwa [beNat_toBigCompact] at this
      have := toBigCompact_length (hlt.trans hle)
      omega

/-- The indices ascend in the order of their keys. -/
theorem keyRank_adjusted {j' : ℕ} (hjj : j < j') (hj : j' < n) :
    keyRank (adjustIndexForRlp j n) < keyRank (adjustIndexForRlp j' n) := by
  have hrank (k : ℕ) : keyRank (adjustIndexForRlp k n) =
      if 0x7f < k then 2 * k else if k = 0x7f ∨ k + 1 = n then 255 else 2 * (k + 1) := by
    unfold adjustIndexForRlp
    split_ifs with h1 h2
    · rw [keyRank, if_neg (by omega)]
    · rfl
    · rw [keyRank, if_neg (by omega)]
  rw [hrank, hrank]
  split_ifs <;> omega

theorem adjusted_lt (hj : j < n) : adjustIndexForRlp j n < n := by
  unfold adjustIndexForRlp
  split_ifs <;> omega

/-- **Each index comes exactly once.** -/
theorem adjusted_perm (n : ℕ) : ((range n).map fun j => adjustIndexForRlp j n).Perm (range n) := by
  refine (subperm_of_subset ?_ ?_).perm_of_length_le (by simp)
  · refine Nodup.map_on (fun j hj j' hj' heq => ?_) nodup_range
    rw [mem_range] at hj hj'
    by_contra hne
    rcases Nat.lt_or_gt_of_ne hne with h | h
    · exact absurd (keyRank_adjusted h hj') (by rw [heq]; exact lt_irrefl _)
    · exact absurd (keyRank_adjusted h hj) (by rw [heq]; exact lt_irrefl _)
  · intro i hi
    obtain ⟨j, hj, rfl⟩ := mem_map.mp hi
    exact mem_range.mpr (adjusted_lt (mem_range.mp hj))

/-- **The keys ascend, and none is a prefix of another.** -/
theorem before_adjusted (hn : n < 2 ^ 64) :
    ((range n).map fun j => indexKey (adjustIndexForRlp j n)).Pairwise Before := by
  refine pairwise_map.mpr (pairwise_lt_range.imp_of_mem fun hj hj' hlt => ?_)
  rw [mem_range] at hj hj'
  exact before_indexKey ((adjusted_lt hj).trans hn) ((adjusted_lt hj').trans hn)
    (keyRank_adjusted hlt hj')

/-! ## The root -/

section Root

variable {keccak256 : Bytes → Bytes32}

/-- The leaves in the order they are fed. -/
def indexLeaves (values : List Bytes) : List (Nibbles × Bytes) :=
  (range values.length).map fun j =>
    (indexKey (adjustIndexForRlp j values.length), values.getD (adjustIndexForRlp j values.length) [])

theorem indexLeaves_before (hn : values.length < 2 ^ 64) :
    (indexLeaves values).Pairwise fun a b => Before a.1 b.1 := by
  have h := before_adjusted hn
  rw [pairwise_map] at h
  exact pairwise_map.mpr h

theorem leafMap_indexLeaves (hn : values.length < 2 ^ 64) :
    leafMap (indexLeaves values) = indexMap values := by
  have hperm := (adjusted_perm values.length).map fun i => (indexKey i, values.getD i [])
  rw [map_map] at hperm
  exact leafMap_perm hperm (ne_of_before (indexLeaves_before hn))

/-- **The root of a list** is the canonical root of its map. -/
theorem vectorRoot_isRoot (hn : values.length < 2 ^ 64) :
    ∃ t, IsTrieOf t (indexMap values) ∧ vectorRoot keccak256 values = mptRoot keccak256 t := by
  have hsorted := indexLeaves_before hn
  have ht := trieOf_spec (prefixFree_of_before hsorted)
  refine ⟨_, leafMap_indexLeaves hn ▸ ht, ?_⟩
  have hkeys : ∀ l ∈ indexLeaves values, l.1 ≠ [] := by
    intro l hl
    obtain ⟨j, -, rfl⟩ := mem_map.mp hl
    exact indexKey_ne_nil _
  rw [← rootOfLeaves_eq hkeys hsorted ht, vectorRoot, indexLeaves, map_map]
  simp only [unpackNibbles_eq]
  rfl

/-! ## The borrowed buffers -/

/-- The state of `root_hash`'s loop: the two buffers of `value_rlp`, the builder, and which buffer
its pending leaf views. -/
structure RootLoop where
  buffers : Bool → Bytes
  hb : HashBuilder
  view : Bool

/-- The builder, with what its pending leaf's buffer holds now. -/
def RootLoop.builder (s : RootLoop) : HashBuilder := { s.hb with value := s.buffers s.view }

/-- A round of `root_hash`: the buffer `j & 1` is overwritten, then the leaf is added. -/
def RootLoop.round {α : Type} (keccak256 : Bytes → Bytes32) (encode : α → Bytes) (v : List α)
    (s : RootLoop) (j : ℕ) :
    RootLoop :=
  let index := adjustIndexForRlp j v.length
  let which := j % 2 = 1
  let s := { s with buffers := Function.update s.buffers which (((v[index]?).map encode).getD []) }
  { s with
    hb := s.builder.addLeaf keccak256 (unpackNibbles (encodeUint (BitVec.ofNat 64 index)))
      (s.buffers which)
    view := which }

/-- `root_hash(const std::vector<Value>&, const Encoder&)`. -/
def rootHash {α : Type} (keccak256 : Bytes → Bytes32) (encode : α → Bytes) (v : List α) : Bytes32 :=
  ((range v.length).foldl (RootLoop.round keccak256 encode v)
    ⟨fun _ => [], {}, true⟩).builder.rootHash keccak256

/-- **A pending leaf's buffer is unchanged until it is used**: the loop computes the root of the
encoded values. -/
theorem rootHash_eq {α : Type} (encode : α → Bytes) (v : List α) :
    rootHash keccak256 encode v = vectorRoot keccak256 (v.map encode) := by
  have hrun (n : ℕ) (hn : n ≤ v.length) :
      let s := (range n).foldl (RootLoop.round keccak256 encode v) ⟨fun _ => [], {}, true⟩
      s.hb = ((range n).map fun j =>
          (unpackNibbles (encodeUint (BitVec.ofNat 64 (adjustIndexForRlp j v.length))),
            (v.map encode).getD (adjustIndexForRlp j v.length) [])).foldl
          (fun hb l => hb.addLeaf keccak256 l.1 l.2) {} ∧
        s.hb.value = s.buffers s.view ∧ s.view = decide (n % 2 = 0) := by
    induction n with
    | zero => exact ⟨rfl, rfl, rfl⟩
    | succ n ih =>
      obtain ⟨hhb, hvalue, hview⟩ := ih (by omega)
      rw [range_succ, foldl_append, map_append, foldl_append]
      set s := (range n).foldl (RootLoop.round keccak256 encode v) ⟨fun _ => [], {}, true⟩
      have hvalueAt : ((v[adjustIndexForRlp n v.length]?).map encode).getD [] =
          (v.map encode).getD (adjustIndexForRlp n v.length) [] := by
        rw [getD_eq_getElem?_getD, getElem?_map]
      -- the buffer written is not the one in view
      have hother : s.view ≠ decide (n % 2 = 1) := by
        rw [hview]
        simp only [ne_eq, decide_eq_decide]
        omega
      have hkept (value : Bytes) :
          RootLoop.builder ⟨Function.update s.buffers (decide (n % 2 = 1)) value, s.hb, s.view⟩ =
            s.hb := by
        rw [RootLoop.builder]
        dsimp only
        rw [Function.update_of_ne hother, ← hvalue]
      refine ⟨?_, ?_, ?_⟩
      · simp only [foldl_cons, foldl_nil, map_cons, map_nil, RootLoop.round, hkept,
          Function.update_self, hvalueAt]
        rw [hhb]
      · simp only [foldl_cons, foldl_nil, RootLoop.round]
        rfl
      · simp only [foldl_cons, foldl_nil, RootLoop.round, decide_eq_decide]
        omega
  obtain ⟨hhb, hvalue, -⟩ := hrun v.length le_rfl
  rw [rootHash, RootLoop.builder, ← hvalue, vectorRoot, rootOfLeaves, length_map]
  exact congrArg (HashBuilder.rootHash keccak256) hhb

end Root

end Zilkworm.Trie
