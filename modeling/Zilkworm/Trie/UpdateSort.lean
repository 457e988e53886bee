/-
# Updates in key order

`core/trie_zz/mpt.hpp`: a walk needs its updates in key order.  `sort_trie_nodes` sorts indices, by
insertion up to 16 of them and with `std::sort` beyond, and then moves the nodes along the cycles of
the permutation with one node in hand; an index that is its own position marks a position as done.
`sort_trie_node_ptrs` sorts pointers and leaves the nodes alone.  `key_lcp_nibbles` reads the
nibbles two keys share from the words and bytes of the keys.

`Following` is what the moves keep: positions in a set `S` hold the node they are to hold, all
others still hold their own, and `S` is closed under taking the position a node came from.  The
indices are 32 bits wide, so an array of more than `2 ^ 32` nodes has a position no index can name
(`applyOrder_long`).
-/
import Mathlib.Data.Finset.Card
import Mathlib.Order.Interval.Finset.Nat
import Zilkworm.Types.BytesCmp
import Zilkworm.Lib.Sorting
import Zilkworm.Trie.GridMpt

namespace Zilkworm.Trie

open List Lib Rlp Zilkworm.Types

variable {fuel i j left : ℕ}

/-! ## The model -/

/-- `TrieNodeFlat`. -/
structure TrieNodeFlat where
  key : Bytes32
  extInitial : Bytes := []
  selfInitialLen : UInt8 := 0
  currentOff : UInt8 := 0
  currentLen : UInt8 := 0
  buf : FixedBytes 112

/-- The nodes and the indices while nodes move, with the nodes written to the array and those taken
in hand so far. -/
structure Moving (α : Type) where
  data : List α
  idx : List ℕ
  moved : List α := []
  held : List α := []

variable {α : Type}

/-- The inner loop of `sort_trie_nodes`: fills position `j` of the cycle of `i`. -/
def followCycle (held : α) (i : ℕ) : (fuel j : ℕ) → Moving α → Option (Moving α)
  | 0, _, _ => none
  | fuel + 1, j, s => do
    let k ← s.idx[j]?
    let idx := s.idx.set j (j % 2 ^ 32)
    if k = i then some { s with idx, data := s.data.set j held, moved := held :: s.moved }
    else
      let node ← s.data[k]?
      followCycle held i fuel k { s with idx, data := s.data.set j node, moved := node :: s.moved }

/-- The outer loop. -/
def applyOrder (fuel : ℕ) : (left i : ℕ) → Moving α → Option (Moving α)
  | 0, _, s => some s
  | left + 1, i, s => do
    let k ← s.idx[i]?
    if k = i then applyOrder fuel left (i + 1) s
    else
      let node ← s.data[i]?
      let s ← followCycle node i fuel i { s with held := node :: s.held }
      applyOrder fuel left (i + 1) s

/-- The key of node `i`. -/
def keyAt (data : List TrieNodeFlat) (i : ℕ) : Bytes32 :=
  (data[i]?.map (·.key)).getD (FixedBytes.zero 32)

/-- The sort by size: by insertion up to 16, and with `std::sort` beyond. -/
def sortBySize {β : Type} (stdSort : ∀ {γ : Type}, (γ → γ → Bool) → List γ → List γ)
    (less : β → β → Bool) (xs : List β) :
    List β :=
  if xs.length ≤ 16 then insertionSort less xs else stdSort less xs

/-- `sort_trie_nodes`. -/
def sortTrieNodes (stdSort : ∀ {γ : Type}, (γ → γ → Bool) → List γ → List γ) (fuel : ℕ)
    (data : List TrieNodeFlat) :
    Option (Moving TrieNodeFlat) :=
  let n := data.length
  if n < 2 then some { data, idx := [] }
  else
    let idx := (range n).map (· % 2 ^ 32)
    let less a b := ltBytes32 (keyAt data a) (keyAt data b)
    applyOrder fuel n 0 { data, idx := sortBySize stdSort less idx }

/-- `sort_trie_node_ptrs`; `node` is the memory the pointers point into. -/
def sortTrieNodePtrs {P : Type} (stdSort : ∀ {γ : Type}, (γ → γ → Bool) → List γ → List γ)
    (node : P → TrieNodeFlat) (order : List P) : List P :=
  if order.length < 2 then order
  else sortBySize stdSort (fun a b => ltBytes32 (node a).key (node b).key) order

/-- The first word of two keys that differs, from word `i` on. -/
def firstDifferingWord (a b : Bytes32) (i : ℕ) : ℕ → ℕ
  | 0 => i
  | left + 1 => if word32 a.val i = word32 b.val i then firstDifferingWord a b (i + 1) left else i

/-- The first byte of two keys that differs, from byte `j` on. -/
def firstDifferingByte (a b : Bytes32) (j : ℕ) : ℕ → ℕ
  | 0 => j
  | left + 1 => if a.val[j]? = b.val[j]? then firstDifferingByte a b (j + 1) left else j

/-- `key_lcp_nibbles`. -/
def keyLcpNibbles (a b : TrieNodeFlat) : ℕ :=
  let i := firstDifferingWord a.key b.key 0 8
  if i = 8 then 64
  else
    let j := firstDifferingByte a.key b.key (4 * i) (32 - 4 * i)
    let differ := a.key.val[j]?.getD 0 ^^^ b.key.val[j]?.getD 0
    2 * j + if differ &&& 0xF0 = 0 then 1 else 0

/-! ## Moving along the cycles -/

/-- `σ` permutes the numbers below `n`. -/
structure PermutesBelow (n : ℕ) (σ : ℕ → ℕ) : Prop where
  lt : ∀ x < n, σ x < n
  inj : ∀ x < n, ∀ y < n, σ x = σ y → x = y

/-- The positions in `S` hold the node of their index, all others their own. -/
structure Following (nodes : List α) (σ : ℕ → ℕ) (S : Finset ℕ) (s : Moving α) : Prop where
  below : ∀ x ∈ S, x < nodes.length
  data : ∀ x < nodes.length, s.data[x]? = nodes[if x ∈ S then σ x else x]?
  dataLength : s.data.length = nodes.length
  idx : ∀ x < nodes.length, s.idx[x]? = some (if x ∈ S then x else σ x)
  idxLength : s.idx.length = nodes.length
  moved : s.moved.Nodup
  movedFrom : ∀ m ∈ s.moved, ∃ x ∈ S, nodes[σ x]? = some m

section Cycles

variable {nodes : List α} {σ : ℕ → ℕ} {S : Finset ℕ} {s : Moving α}

/-- **A move keeps what the moves keep**: position `j` gets its node and its own index. -/
theorem Following.move (h : Following nodes σ S s) (hσ : PermutesBelow nodes.length σ)
    (hn : nodes.length ≤ 2 ^ 32) (hnodes : nodes.Nodup) (hj : j < nodes.length) (hjS : j ∉ S)
    {node : α} (hnode : nodes[σ j]? = some node) :
    Following nodes σ (insert j S)
      { s with idx := s.idx.set j (j % 2 ^ 32), data := s.data.set j node, moved := node ::
        s.moved } where
  below x hx := by
    rcases Finset.mem_insert.mp hx with rfl | hx
    · exact hj
    · exact h.below x hx
  data x hx := by
    by_cases hxj : j = x
    · subst hxj
      rw [getElem?_set_self (h.dataLength ▸ hj), if_pos (Finset.mem_insert_self _ _), hnode]
    · have hmem : x ∈ insert j S ↔ x ∈ S := by simp [Ne.symm hxj]
      rw [getElem?_set_ne hxj, h.data x hx]
      simp only [hmem]
  dataLength := by rw [length_set, h.dataLength]
  idx x hx := by
    by_cases hxj : j = x
    · subst hxj
      rw [getElem?_set_self (h.idxLength ▸ hj), if_pos (Finset.mem_insert_self _ _),
        Nat.mod_eq_of_lt (by omega)]
    · have hmem : x ∈ insert j S ↔ x ∈ S := by simp [Ne.symm hxj]
      rw [getElem?_set_ne hxj, h.idx x hx]
      simp only [hmem]
  idxLength := by rw [length_set, h.idxLength]
  moved := by
    refine nodup_cons.mpr ⟨fun hmem => ?_, h.moved⟩
    obtain ⟨x, hx, hxnode⟩ := h.movedFrom node hmem
    have hxlt := h.below x hx
    have heq := (getElem?_inj (hσ.lt x hxlt) hnodes).mp (hxnode.trans hnode.symm)
    exact hjS (hσ.inj x hxlt j hj heq ▸ hx)
  movedFrom m hm := by
    rcases mem_cons.mp hm with rfl | hm
    · exact ⟨j, Finset.mem_insert_self _ _, hnode⟩
    · obtain ⟨x, hx, hxm⟩ := h.movedFrom m hm
      exact ⟨x, Finset.mem_insert_of_mem hx, hxm⟩

/-- **A cycle is followed to its end.**  Every position in `S` but `i` has the position its node
came from in `S`, so the next position is new until it is `i` again. -/
theorem followCycle_spec (hσ : PermutesBelow nodes.length σ) (hn : nodes.length ≤ 2 ^ 32)
    (hnodes : nodes.Nodup) {held : α} (hheld : nodes[i]? = some held) (h : Following nodes σ S s)
    (hj : j < nodes.length) (hjS : j ∉ S) (hclosed : ∀ x ∈ insert j S, x ≠ i → ∃ y ∈ S, σ y = x)
    (hfuel : nodes.length ≤ fuel + S.card) :
    ∃ S' s', followCycle held i fuel j s = some s' ∧ Following nodes σ S' s' ∧ insert j S ⊆ S' ∧
      (∀ x ∈ S', ∃ y ∈ S', σ y = x) ∧ s'.held = s.held := by
  induction fuel generalizing j S s with
  | zero =>
    -- every position is in `S`, and `j` is not
    have hsub : insert j S ⊆ Finset.range nodes.length := fun x hx => by
      rcases Finset.mem_insert.mp hx with rfl | hx
      · exact Finset.mem_range.mpr hj
      · exact Finset.mem_range.mpr (h.below x hx)
    have hcard := Finset.card_le_card hsub
    rw [Finset.card_insert_of_notMem hjS, Finset.card_range] at hcard
    omega
  | succ fuel ih =>
    have hk : s.idx[j]? = some (σ j) := by rw [h.idx j hj, if_neg hjS]
    rw [followCycle, hk]
    simp only [Option.bind_eq_bind, Option.bind_some]
    by_cases hend : σ j = i
    · rw [if_pos hend]
      refine ⟨insert j S,
        _, rfl, h.move hσ hn hnodes hj hjS (hend ▸ hheld), subset_rfl, fun x hx => ?_, rfl⟩
      by_cases hxi : x = i
      · exact ⟨j, Finset.mem_insert_self _ _, hend.trans hxi.symm⟩
      · obtain ⟨y, hy, hyx⟩ := hclosed x hx hxi
        exact ⟨y, Finset.mem_insert_of_mem hy, hyx⟩
    · have hnew : σ j ∉ insert j S := fun hmem => by
        obtain ⟨y, hy, hyj⟩ := hclosed _ hmem hend
        exact hjS (hσ.inj y (h.below y hy) j hj hyj ▸ hy)
      have hlt : σ j < nodes.length := hσ.lt j hj
      have hnode : s.data[σ j]? = some nodes[σ j] := by
        rw [h.data _ hlt, if_neg
          fun hmem => hnew (Finset.mem_insert_of_mem hmem), getElem?_eq_getElem hlt]
      rw [if_neg hend, hnode, Option.bind_some]
      have hmove := h.move hσ hn hnodes hj hjS (getElem?_eq_getElem hlt)
      obtain ⟨S', s', hrun, hS', hsub, hback, hsame⟩ := ih hmove hlt hnew (fun x hx hxi => by
        rcases Finset.mem_insert.mp hx with rfl | hx
        · exact ⟨j, Finset.mem_insert_self _ _, rfl⟩
        · obtain ⟨y, hy, hyx⟩ := hclosed x hx hxi
          exact ⟨y, Finset.mem_insert_of_mem hy, hyx⟩) (by rw [Finset.card_insert_of_notMem hjS]; omega)
      exact ⟨S', s', hrun, hS', (Finset.subset_insert _ _).trans hsub, hback, hsame⟩

/-- **Every position gets its node.** -/
theorem applyOrder_spec (hσ : PermutesBelow nodes.length σ) (hn : nodes.length ≤ 2 ^ 32)
    (hnodes : nodes.Nodup) (hfuel : nodes.length ≤ fuel) (hleft : i + left = nodes.length)
    (h : Following nodes σ S s) (hdone : ∀ x < i, x ∈ S ∨ σ x = x)
    (hclosed : ∀ x ∈ S, ∃ y ∈ S, σ y = x) (hheld : s.held.Nodup)
    (hheldFrom : ∀ m ∈ s.held, ∃ x ∈ S, nodes[x]? = some m) :
    ∃ S' s', applyOrder fuel left i s = some s' ∧ Following nodes σ S' s' ∧
      (∀ x < nodes.length, x ∈ S' ∨ σ x = x) ∧
      s'.held.Nodup := by
  induction left generalizing i S s with
  | zero =>
    obtain rfl : i = nodes.length := by omega
    exact ⟨S, s, rfl, h, hdone, hheld⟩
  | succ left ih =>
    have hi : i < nodes.length := by omega
    rw [applyOrder, h.idx i hi]
    simp only [Option.bind_eq_bind, Option.bind_some]
    by_cases hfix : (if i ∈ S then i else σ i) = i
    · rw [if_pos hfix]
      refine ih (by omega) h (fun x hx => ?_) hclosed hheld hheldFrom
      rcases Nat.lt_succ_iff_lt_or_eq.mp hx with hx | rfl
      · exact hdone x hx
      · by_cases hmem : x ∈ S
        · exact .inl hmem
        · exact .inr (by rwa [if_neg hmem] at hfix)
    · have hiS : i ∉ S := fun hmem => hfix (if_pos hmem)
      have hnode : s.data[i]? = some nodes[i] := by rw [h.data i hi, if_neg hiS, getElem?_eq_getElem hi]
      rw [if_neg hfix, hnode, Option.bind_some]
      have hstart : Following nodes σ S { s with held := nodes[i] :: s.held } :=
        ⟨h.1, h.2, h.3, h.4, h.5, h.6, h.7⟩
      obtain ⟨S', s', hrun, hS', hsub, hback, hsame⟩ :=
        followCycle_spec hσ hn hnodes (getElem?_eq_getElem hi) hstart hi hiS
        (fun x hx hxi => hclosed x ((Finset.mem_insert.mp hx).resolve_left hxi))
        (by omega : nodes.length ≤ fuel + S.card)
      rw [hrun, Option.bind_some]
      refine ih (by omega) hS' (fun x hx => ?_) hback ?_ ?_
      · rcases Nat.lt_succ_iff_lt_or_eq.mp hx with hx | rfl
        · exact (hdone x hx).imp_left fun hmem => hsub (Finset.mem_insert_of_mem hmem)
        · exact .inl (hsub (Finset.mem_insert_self _ _))
      · rw [hsame]
        refine nodup_cons.mpr ⟨fun hmem => ?_, hheld⟩
        obtain ⟨x, hx, hxi⟩ := hheldFrom _ hmem
        have heq := (getElem?_inj (h.below x hx) hnodes).mp (hxi.trans (getElem?_eq_getElem hi).symm)
        exact hiS (heq ▸ hx)
      · rw [hsame]
        intro m hm
        rcases mem_cons.mp hm with rfl | hm
        · exact ⟨i, hsub (Finset.mem_insert_self _ _), getElem?_eq_getElem hi⟩
        · obtain ⟨x, hx, hxm⟩ := hheldFrom m hm
          exact ⟨x, hsub (Finset.mem_insert_of_mem hx), hxm⟩

/-- **The array in the order of its indices.** -/
theorem applyOrder_perm (hn : nodes.length ≤ 2 ^ 32) (hnodes : nodes.Nodup) {idx : List ℕ}
    (hidx : idx.Perm (range nodes.length)) (hfuel : nodes.length ≤ fuel) :
    ∃ s, applyOrder fuel nodes.length 0 { data := nodes, idx } = some s ∧
      s.data.map some = idx.map (nodes[·]?) ∧ s.moved.Nodup ∧ s.held.Nodup := by
  have hlen : idx.length = nodes.length := by rw [hidx.length_eq, length_range]
  have hread (x : ℕ) (hx : x < nodes.length) : idx[x]? = some (idx[x]?.getD 0) := by
    rw [getElem?_eq_getElem (hlen ▸ hx), Option.getD_some]
  have hσ : PermutesBelow nodes.length fun x => idx[x]?.getD 0 :=
    { lt := fun x hx => mem_range.mp (hidx.mem_iff.mp (mem_of_getElem? (hread x hx)))
      inj := fun x hx y hy hxy => by
        refine (getElem?_inj (hlen ▸ hx) (hidx.nodup_iff.mpr nodup_range)).mp ?_
        rw [hread x hx, hread y hy]
        exact congrArg some hxy }
  have hstart : Following nodes (fun x => idx[x]?.getD 0) ∅ { data := nodes, idx } :=
    ⟨by simp, fun x hx => by simp, rfl, fun x hx => by simpa using hread x hx, hlen, .nil, by simp⟩
  obtain ⟨S, s, hrun, hS, hdone, hheld⟩ :=
    applyOrder_spec hσ hn hnodes hfuel (Nat.zero_add _) hstart (by simp) (by simp) .nil
    (by simp)
  refine ⟨s, hrun, ext_getElem? fun x => ?_, hS.moved, hheld⟩
  rw [getElem?_map, getElem?_map]
  rcases Nat.lt_or_ge x nodes.length with hx | hx
  · have hfinal : (if x ∈ S then idx[x]?.getD 0 else x) = idx[x]?.getD 0 := by
      split_ifs with hmem
      · rfl
      · exact ((hdone x hx).resolve_left hmem).symm
    rw [hS.data x hx, hfinal, hread x hx, Option.map_some, Option.getD_some,
      getElem?_eq_getElem (hσ.lt x hx), Option.map_some]
  · rw [getElem?_eq_none (hS.dataLength ▸ hx), getElem?_eq_none (hlen ▸ hx)]
    rfl

end Cycles

/-! ## More positions than indices -/

theorem set_index_lt {idx : List ℕ} (hidx : ∀ k ∈ idx, k < 2 ^ 32) (j : ℕ) :
    ∀ k ∈ idx.set j (j % 2 ^ 32), k < 2 ^ 32 := by
  intro k hk
  rcases mem_or_eq_of_mem_set hk with hk | rfl
  · exact hidx k hk
  · exact Nat.mod_lt _ (by decide)

theorem followCycle_long {held : α} {s : Moving α} (hi : 2 ^ 32 ≤ i)
    (hidx : ∀ k ∈ s.idx, k < 2 ^ 32) : followCycle held i fuel j s = none := by
  induction fuel generalizing j s with
  | zero => rfl
  | succ fuel ih =>
    rw [followCycle]
    cases hk : s.idx[j]? with
    | none => rfl
    | some k =>
      have hlt := hidx k (mem_of_getElem? hk)
      simp only [Option.bind_eq_bind, Option.bind_some]
      rw [if_neg (by omega)]
      cases s.data[k]? with
      | none => rfl
      | some node => exact ih (set_index_lt hidx j)

theorem followCycle_idx {held : α} {s s' : Moving α} (hidx : ∀ k ∈ s.idx, k < 2 ^ 32)
    (h : followCycle held i fuel j s = some s') : ∀ k ∈ s'.idx, k < 2 ^ 32 := by
  induction fuel generalizing j s with
  | zero => cases h
  | succ fuel ih =>
    rw [followCycle] at h
    cases hk : s.idx[j]? with
    | none => rw [hk] at h; cases h
    | some k =>
      rw [hk] at h
      simp only [Option.bind_eq_bind, Option.bind_some] at h
      split_ifs at h with hend
      · cases h
        exact set_index_lt hidx j
      · cases hnode : s.data[k]? with
        | none => rw [hnode] at h; cases h
        | some node =>
          rw [hnode, Option.bind_some] at h
          exact ih (set_index_lt hidx j) h

/-- **At position `2 ^ 32` the cycle never closes**, as no index is that number. -/
theorem applyOrder_long {s : Moving α} (hi : i ≤ 2 ^ 32) (hleft : 2 ^ 32 < i + left)
    (hidx : ∀ k ∈ s.idx, k < 2 ^ 32) : applyOrder fuel left i s = none := by
  induction left generalizing i s with
  | zero => omega
  | succ left ih =>
    rw [applyOrder]
    cases hk : s.idx[i]? with
    | none => rfl
    | some k =>
      have hlt := hidx k (mem_of_getElem? hk)
      simp only [Option.bind_eq_bind, Option.bind_some]
      by_cases hfix : k = i
      · rw [if_pos hfix]
        exact ih (by omega) (by omega) hidx
      · rw [if_neg hfix]
        cases s.data[i]? with
        | none => rfl
        | some node =>
          rw [Option.bind_some]
          cases hrun : followCycle node i fuel i { s with held := node :: s.held } with
          | none => rfl
          | some s' =>
            rcases Nat.eq_or_lt_of_le hi with rfl | hi
            · rw [followCycle_long (s := { s with held := node :: s.held }) le_rfl hidx] at hrun
              cases hrun
            · exact ih hi (by omega) (followCycle_idx (s := { s with held := node :: s.held }) hidx hrun)

/-! ## The order of keys -/

theorem keyLess_strictWeak {β : Type} (key : β → Bytes32) :
    StrictWeak fun a b => ltBytes32 (key a) (key b) where
  asymm a b h := by
    rw [ltBytes32_iff] at h
    rw [← Bool.not_eq_true, ltBytes32_iff]
    exact List.lt_asymm h
  trans a b c hab hbc := by
    rw [← Bool.not_eq_true, ltBytes32_iff, List.not_lt] at hab hbc ⊢
    exact Std.le_trans hab hbc

theorem sortBySize_sorts {β : Type} {stdSort : ∀ {γ : Type}, (γ → γ → Bool) → List γ → List γ}
    (hsort : IsSort stdSort) {less : β → β → Bool}
    (hless : StrictWeak less) : SortsBy less (sortBySize stdSort less) := by
  intro xs
  rw [sortBySize]
  split_ifs
  · exact insertionSort_sorts hless xs
  · exact hsort less hless xs

/-- **Distinct keys in order ascend strictly.** -/
theorem strict_of_ascending {β : Type} {key : β → Bytes32} {xs : List β}
    (hxs : Ascending (fun a b => ltBytes32 (key a) (key b)) xs) (hkeys : (xs.map key).Nodup) :
    xs.Pairwise fun a b => (key a).val < (key b).val := by
  refine (hxs.and (pairwise_map.mp hkeys)).imp fun {a b} h => ?_
  obtain ⟨hle, hne⟩ := h
  rw [← Bool.not_eq_true, ltBytes32_iff] at hle
  exact Std.lt_of_le_of_ne hle fun heq => hne (Subtype.ext heq)

section Sorted

variable {stdSort : ∀ {γ : Type}, (γ → γ → Bool) → List γ → List γ}

/-- **`sort_trie_nodes` sorts**, and writes each node at most once. -/
theorem sortTrieNodes_spec (hsort : IsSort stdSort) {data : List TrieNodeFlat}
    (hkeys : (data.map (·.key)).Nodup) (hn : data.length ≤ 2 ^ 32) (hfuel : data.length ≤ fuel) :
    ∃ s, sortTrieNodes stdSort fuel data = some s ∧ s.data.Perm data ∧
      s.data.Pairwise (fun a b => a.key.val < b.key.val) ∧ s.moved.Nodup ∧ s.held.Nodup := by
  rw [sortTrieNodes]
  split_ifs with hshort
  · refine ⟨_, rfl, .refl _, ?_, .nil, .nil⟩
    match data, hshort with
    | [], _ => exact .nil
    | [a], _ => exact pairwise_singleton _ _
  · have hrange : (range data.length).map (· % 2 ^ 32) = range data.length := by
      conv_rhs => rw [← map_id (range data.length)]
      exact map_congr_left fun x hx => Nat.mod_eq_of_lt (by have := mem_range.mp hx; omega)
    rw [hrange]
    obtain ⟨hperm, hasc⟩ := sortBySize_sorts hsort (keyLess_strictWeak (keyAt data)) (range data.length)
    obtain ⟨s, hrun, hdata, hmoved, hheld⟩ := applyOrder_perm hn hkeys.of_map hperm hfuel
    have hperm' : s.data.Perm data := by
      refine (map_perm_map_iff (Option.some_injective _)).mp ?_
      rw [hdata]
      refine (hperm.map _).trans (Perm.of_eq (ext_getElem? fun x => ?_))
      rcases Nat.lt_or_ge x data.length with hx | hx
      · rw [getElem?_map, getElem?_map, getElem?_range hx, Option.map_some, getElem?_eq_getElem hx,
          Option.map_some]
      · rw [getElem?_eq_none (by simpa using hx), getElem?_eq_none (by simpa using hx)]
    refine ⟨s, hrun, hperm',
      @strict_of_ascending _ (·.key) _ ?_ ((hperm'.map _).nodup_iff.mpr hkeys), hmoved, hheld⟩
    -- the indices ascend by the keys of the nodes they name
    let keyOf (node : Option TrieNodeFlat) : Bytes32 := (node.map (·.key)).getD (FixedBytes.zero 32)
    have hnamed : Ascending (fun a b => ltBytes32 (keyOf a) (keyOf b)) (s.data.map some) := by
      rw [hdata]
      exact pairwise_map.mpr hasc
    exact pairwise_map.mp hnamed

theorem sortTrieNodePtrs_spec (hsort : IsSort stdSort) {P : Type} {node : P → TrieNodeFlat}
    {order : List P} (hkeys : ((order.map node).map (·.key)).Nodup) :
    (sortTrieNodePtrs stdSort node order).Perm order ∧
      ((sortTrieNodePtrs stdSort node order).map node).Pairwise fun a b => a.key.val < b.key.val := by
  have hspec : (sortTrieNodePtrs stdSort node order).Perm order ∧
      Ascending (fun a b => ltBytes32 (node a).key (node b).key)
        (sortTrieNodePtrs stdSort node order) := by
    rw [sortTrieNodePtrs]
    split_ifs with hshort
    · refine ⟨.refl _, ?_⟩
      match order, hshort with
      | [], _ => exact .nil
      | [a], _ => exact pairwise_singleton _ _
    · exact sortBySize_sorts hsort (keyLess_strictWeak fun p => (node p).key) order
  obtain ⟨hperm, hasc⟩ := hspec
  rw [map_map] at hkeys
  exact ⟨hperm, pairwise_map.mpr (strict_of_ascending hasc ((hperm.map _).nodup_iff.mpr hkeys))⟩

end Sorted

/-! ## The nibbles two keys share -/

theorem lcp_append (front u v : Nibbles) :
    Grid.lcp (front ++ u) (front ++ v) = front.length + Grid.lcp u v := by
  induction front with
  | nil => simp
  | cons a front ih =>
    rw [cons_append, cons_append, Grid.lcp, if_pos rfl, ih, length_cons]
    omega

theorem length_flatMap_nibblesOf (b : Bytes) : (b.flatMap nibblesOf).length = 2 * b.length := by
  induction b with
  | nil => rfl
  | cons x b ih =>
    rw [flatMap_cons, length_append, ih, length_cons]
    simp only [nibblesOf, length_cons, length_nil]
    omega

theorem take_word (key : Bytes32) (i : ℕ) : key.val.take (4 * (i + 1)) =
    key.val.take (4 * i) ++ slice key.val (4 * i) 4 := by
  rw [Nat.mul_succ, take_add, slice]

theorem firstDifferingWord_spec (a b : Bytes32) (hi : i + left = 8)
    (htake : a.val.take (4 * i) = b.val.take (4 * i)) :
    firstDifferingWord a b i left ≤ 8 ∧
      a.val.take (4 * firstDifferingWord a b i left) = b.val.take (4 * firstDifferingWord a b i left) ∧
      (firstDifferingWord a b i left < 8 → a ≠ b) := by
  induction left generalizing i with
  | zero =>
    rw [firstDifferingWord]
    exact ⟨by omega, htake, by omega⟩
  | succ left ih =>
    rw [firstDifferingWord]
    split_ifs with heq
    · refine ih (by omega) ?_
      rw [take_word, take_word, htake, (word32_eq_iff a b (by omega)).mp heq]
    · exact ⟨by omega, htake, fun _ hab => heq (by rw [hab])⟩

theorem firstDifferingByte_spec {a b : Bytes32} (hab : a ≠ b) (hj : j + left = 32)
    (htake : a.val.take j = b.val.take j) :
    firstDifferingByte a b j left < 32 ∧
      a.val.take (firstDifferingByte a b j left) = b.val.take (firstDifferingByte a b j left) ∧
      a.val[firstDifferingByte a b j left]? ≠ b.val[firstDifferingByte a b j left]? := by
  induction left generalizing j with
  | zero =>
    obtain rfl : j = 32 := by omega
    rw [take_of_length_le (by rw [a.2]), take_of_length_le (by rw [b.2])] at htake
    exact absurd (Subtype.ext htake) hab
  | succ left ih =>
    rw [firstDifferingByte]
    split_ifs with heq
    · refine ih (by omega) ?_
      rw [take_add_one, take_add_one, htake, heq]
    · exact ⟨by omega, htake, heq⟩

theorem xor_high_eq_zero (x y : UInt8) : (x ^^^ y) &&& 0xF0 = 0 ↔ x.toNat / 16 = y.toNat / 16 := by
  have hnat : ∀ n < 256, n &&& 0xF0 = 16 * (n / 16) := by decide +kernel
  have hhigh (x : UInt8) : (x &&& 0xF0).toNat = 16 * (x.toNat / 16) := by
    exact hnat _ x.toNat_lt
  have hdistrib : (x ^^^ y) &&& 0xF0 = (x &&& 0xF0) ^^^ (y &&& 0xF0) := by
    refine UInt8.eq_of_toBitVec_eq (BitVec.eq_of_getLsbD_eq fun i hi => ?_)
    simp [Bool.and_xor_distrib_right]
  rw [hdistrib, UInt8.xor_eq_zero_iff, ← UInt8.toNat_inj, hhigh, hhigh]
  omega

theorem lcp_nibblesOf {x y : UInt8} (hxy : x ≠ y) (u v : Nibbles) :
    Grid.lcp (nibblesOf x ++ u) (nibblesOf y ++ v) = if (x ^^^ y) &&& 0xF0 = 0 then 1 else 0 := by
  have hne : x.toNat ≠ y.toNat := fun h => hxy (UInt8.toNat_inj.mp h)
  simp only [nibblesOf, cons_append, nil_append, Grid.lcp, Fin.mk.injEq]
  by_cases hhigh : x.toNat / 16 = y.toNat / 16
  · rw [if_pos hhigh, if_neg (by omega), if_pos ((xor_high_eq_zero x y).mpr hhigh)]
  · rw [if_neg hhigh, if_neg fun h => hhigh ((xor_high_eq_zero x y).mp h)]

/-- **`key_lcp_nibbles` is the length of the common part of the keys' nibbles.** -/
theorem keyLcpNibbles_eq (a b : TrieNodeFlat) : keyLcpNibbles a b =
    Grid.lcp (nibblesOfKey a.key) (nibblesOfKey b.key) := by
  obtain ⟨hle, htake, hdiffer⟩ := firstDifferingWord_spec a.key b.key (Nat.zero_add 8) rfl
  rw [keyLcpNibbles]
  dsimp only
  generalize firstDifferingWord a.key b.key 0 8 = i at *
  by_cases hi : i = 8
  · subst hi
    have hab : a.key = b.key := Subtype.ext (by
      rwa [take_of_length_le (by rw [a.key.2]), take_of_length_le (by rw [b.key.2])] at htake)
    have hself := lcp_append (nibblesOfKey b.key) [] []
    rw [append_nil, nibblesOfKey, length_flatMap_nibblesOf, b.key.2] at hself
    rw [if_pos rfl, hab, nibblesOfKey, hself]
    rfl
  · obtain ⟨hj, hsame, hne⟩ :=
      firstDifferingByte_spec (hdiffer (by omega)) (by omega : 4 * i + (32 - 4 * i) = 32) htake
    rw [if_neg hi]
    generalize firstDifferingByte a.key b.key (4 * i) (32 - 4 * i) = j at *
    have hja : j < a.key.val.length := by rw [a.key.2]; exact hj
    have hjb : j < b.key.val.length := by rw [b.key.2]; exact hj
    rw [getElem?_eq_getElem hja, getElem?_eq_getElem hjb] at hne ⊢
    have hsplit (key : Bytes32) (h : j < key.val.length) : nibblesOfKey key =
        (key.val.take j).flatMap nibblesOf ++
          (nibblesOf key.val[j] ++ (key.val.drop (j + 1)).flatMap nibblesOf) := by
      rw [nibblesOfKey, ← flatMap_cons, ← flatMap_append, getElem_cons_drop, take_append_drop]
    rw [hsplit a.key hja, hsplit b.key hjb, hsame, lcp_append,
      lcp_nibblesOf fun h => hne (congrArg some h),
      length_flatMap_nibblesOf, length_take, Nat.min_eq_left hjb.le]
    rfl

/-! ## The sorts -/

/-- **Sorted updates.**  For updates with distinct keys `sort_trie_nodes` leaves the nodes in
strictly ascending key order, each written at most once and taken in hand at most once, if the array
has at most `2 ^ 32` of them; `sort_trie_node_ptrs` orders any number of pointers alike; and
`key_lcp_nibbles` counts the nibbles two keys share. -/
theorem updateSort_correct {stdSort : ∀ {γ : Type}, (γ → γ → Bool) → List γ → List γ}
    (hsort : IsSort stdSort) {data : List TrieNodeFlat} (hkeys : (data.map (·.key)).Nodup) :
    (∃ sorted : List TrieNodeFlat, sorted.Perm data ∧
      sorted.Pairwise (fun a b => a.key.val < b.key.val) ∧
      (data.length ≤ 2 ^ 32 → ∀ fuel, data.length ≤ fuel →
        ∃ s, sortTrieNodes stdSort fuel data = some s ∧ s.data = sorted ∧ s.moved.Nodup ∧ s.held.Nodup) ∧
      ∀ {P : Type} (node : P → TrieNodeFlat) (order : List P), order.map node = data →
        (sortTrieNodePtrs stdSort node order).Perm order ∧
          (sortTrieNodePtrs stdSort node order).map node = sorted) ∧
      ∀ a b, keyLcpNibbles a b = Grid.lcp (nibblesOfKey a.key) (nibblesOfKey b.key) := by
  have hunique {xs ys : List TrieNodeFlat} (hx : xs.Pairwise fun a b => a.key.val < b.key.val)
      (hy : ys.Pairwise fun a b => a.key.val < b.key.val) (h : xs.Perm ys) : xs = ys :=
    Perm.eq_of_pairwise (fun a b _ _ hab hba => absurd hba (List.lt_asymm hab)) hx hy h
  -- the sort of pointers to the nodes themselves gives the order
  obtain ⟨hperm, hasc⟩ := @sortTrieNodePtrs_spec _ hsort _ id data (by rwa [map_id])
  rw [map_id] at hasc
  refine ⟨⟨sortTrieNodePtrs stdSort id data, hperm, hasc, fun hn fuel hfuel => ?_, ?_⟩, keyLcpNibbles_eq⟩
  · obtain ⟨s, hrun, hsperm, hsasc, hmoved, hheld⟩ := sortTrieNodes_spec hsort hkeys hn hfuel
    exact ⟨s, hrun, hunique hsasc hasc (hsperm.trans hperm.symm), hmoved, hheld⟩
  · rintro P node order rfl
    obtain ⟨hpperm, hpasc⟩ := sortTrieNodePtrs_spec hsort hkeys
    exact ⟨hpperm, hunique hpasc hasc ((hpperm.map node).trans hperm.symm)⟩

/-- A node of key `k`. -/
def nodeOfKey (k : ℕ) : TrieNodeFlat := { key := Bytes32.ofNat k, buf := FixedBytes.zero 112 }

theorem updateSort_correct_three :
    ∃ s, sortTrieNodes insertionSort 3 [nodeOfKey 7, nodeOfKey 9, nodeOfKey 2] = some s ∧
      s.data.Perm [nodeOfKey 7, nodeOfKey 9, nodeOfKey 2] ∧
        s.data.Pairwise fun a b => a.key.val < b.key.val := by
  obtain ⟨⟨sorted, hperm, hasc, hrun, -⟩, -⟩ :=
    @updateSort_correct insertionSort (fun _ => insertionSort_sorts)
    [nodeOfKey 7, nodeOfKey 9, nodeOfKey 2] (by decide)
  obtain ⟨s, hs, hdata, -⟩ := hrun (by decide) 3 le_rfl
  subst hdata
  exact ⟨s, hs, hperm, hasc⟩

theorem sortTrieNodes_long {stdSort : ∀ {γ : Type}, (γ → γ → Bool) → List γ → List γ}
    (hsort : IsSort stdSort)
    {data : List TrieNodeFlat} (hlong : 2 ^ 32 < data.length) (fuel : ℕ) :
    sortTrieNodes stdSort fuel data = none := by
  rw [sortTrieNodes]
  rw [if_neg (by omega)]
  refine applyOrder_long (Nat.zero_le _) (by omega) fun k hk => ?_
  have hperm :=
    (sortBySize_sorts hsort (keyLess_strictWeak (keyAt data)) ((range data.length).map (· % 2 ^ 32))).1
  obtain ⟨x, -, rfl⟩ := mem_map.mp (hperm.mem_iff.mp hk)
  exact Nat.mod_lt _ (by decide)

theorem nodup_nodeOfKey {n : ℕ} (hn : n ≤ 256 ^ 32) : (((range n).map nodeOfKey).map (·.key)).Nodup := by
  rw [map_map]
  refine Nodup.map_on (fun x hx y hy h => ?_) nodup_range
  have hle : toLe 32 x = toLe 32 y := reverse_injective (congrArg Subtype.val h)
  have hnat := congrArg leNat hle
  rw [mem_range] at hx hy
  rwa [leNat_toLe, leNat_toLe, Nat.mod_eq_of_lt (by omega), Nat.mod_eq_of_lt (by omega)] at hnat

/-- **An array of `2 ^ 32 + 1` nodes is never sorted**: the last position has no index. -/
theorem sortTrieNodes_unbounded :
    ∃ data : List TrieNodeFlat, (data.map (·.key)).Nodup ∧ data.length = 2 ^ 32 + 1 ∧
      ∀ stdSort : ∀ {γ : Type}, (γ → γ → Bool) → List γ → List γ, IsSort stdSort →
        ∀ fuel, sortTrieNodes stdSort fuel data = none := by
  have hlen : ((range (2 ^ 32 + 1)).map nodeOfKey).length = 2 ^ 32 + 1 := by
    rw [length_map, length_range]
  exact ⟨_, nodup_nodeOfKey (by norm_num), hlen,
    fun stdSort hsort fuel => sortTrieNodes_long hsort (by rw [hlen]; omega) fuel⟩

end Zilkworm.Trie
