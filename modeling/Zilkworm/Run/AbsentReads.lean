/-
# The distinct keys among absent reads

`dev/state_transition.cpp`: `absent_read_keys` walks a record's reads along their `prev` links,
packs each read's position under the exclusive or of its key's words, sorts the packed numbers, and
drops a read if one before it has the same key.  It looks back only while the folds are equal, and
stops at the first fold that differs.

In sorted order reads of one key stand in one run of equal folds, whatever other keys have the same
fold, so the look back finds every read of the key before (`repeats_iff`).
-/
import Mathlib.Data.Finset.Card
import Mathlib.Logic.Relation
import Mathlib.Order.Interval.Finset.Nat
import Zilkworm.Types.BytesCmp
import Zilkworm.Lib.Sorting
import Zilkworm.Run.CheckRoot

namespace Zilkworm.Run

open List

namespace AbsentReads

open Lib Rlp Zilkworm.Types

/-! ## The model -/

/-- `AbsentRead`; `prev` is one above the position of the record's previous read. -/
structure AbsentRead where
  key : Bytes32
  prev : BitVec 32

variable (reads : List AbsentRead)

/-- The exclusive or of a key's words. -/
def fold (key : Bytes32) : BitVec 32 :=
  word32 key.val 0 ^^^ word32 key.val 1 ^^^ word32 key.val 2 ^^^ word32 key.val 3 ^^^
    word32 key.val 4 ^^^ word32 key.val 5 ^^^ word32 key.val 6 ^^^ word32 key.val 7

/-- A fold and a position in one number. -/
def pack (fold i : BitVec 32) : U64 := fold.setWidth 64 <<< 32 ||| i.setWidth 64

/-- The first loop: the packed reads along the links from `i`. -/
def collect : (fuel : ℕ) → (i : BitVec 32) → Option (List U64)
  | 0, _ => none
  | fuel + 1, i =>
    if i = 0 then some []
    else do
      let read ← reads[(i - 1).toNat]?
      let order ← collect fuel read.prev
      some (pack (fold read.key) (i - 1) :: order)

/-- The key of a packed read. -/
def keyOf (packed : U64) : Bytes32 :=
  (reads[(packed.setWidth 32).toNat]?.map (·.key)).getD (FixedBytes.zero 32)

/-- The look back from place `k`: a read of `key` with the fold of `packed`. -/
def repeats (order : List U64) (packed : U64) (key : Bytes32) : (k : ℕ) → Bool
  | 0 => false
  | k + 1 =>
    match order[k]? with
    | some before =>
      if before >>> 32 = packed >>> 32 then keyOf reads before =
        key || repeats order packed key k else false
    | none => false

/-- The second loop. -/
def keysFrom (written : Bytes32 → Bool) (order : List U64) : (left j : ℕ) → List Bytes32
  | 0, _ => []
  | left + 1, j =>
    match order[j]? with
    | some packed =>
      let key := keyOf reads packed
      if repeats reads order packed key j || written key then keysFrom written order left (j + 1)
      else key :: keysFrom written order left (j + 1)
    | none => []

/-- `absent_read_keys`; `written` is `contains`, and false everywhere for no map. -/
def absentReadKeys (stdSort : ∀ {γ : Type}, (γ → γ → Bool) → List γ → List γ) (fuel : ℕ)
    (head : BitVec 32) (written : Bytes32 → Bool) : Option (List Bytes32) := do
  let order ← collect reads fuel head
  let order := stdSort (fun a b => decide (a < b)) order
  some (keysFrom reads written order order.length 0)

/-! ## The links -/

/-- Link `i` names a read whose `prev` is `j`. -/
def Next (i j : BitVec 32) : Prop := i ≠ 0 ∧ ∃ read, reads[(i - 1).toNat]? = some read ∧ read.prev = j

/-- The list from `head`: links to reads of the array. -/
def Occurs (head : BitVec 32) (key : Bytes32) : Prop :=
  ∃ i, Relation.ReflTransGen (Next reads) head i ∧ i ≠ 0 ∧
    ∃ read, reads[(i - 1).toNat]? = some read ∧ read.key = key

/-- No link leads back to itself. -/
def Acyclic : Prop := ∀ i, ¬ Relation.TransGen (Next reads) i i

/-- Every link from `head` on names a read or ends the list. -/
def Linked (head : BitVec 32) : Prop := ∀ i, Relation.ReflTransGen (Next reads) head i →
    i.toNat ≤ reads.length

variable {reads} {stdSort : ∀ {γ : Type}, (γ → γ → Bool) → List γ → List γ}

theorem toNat_pred {i : BitVec 32} (hi : i ≠ 0) : (i - 1).toNat + 1 = i.toNat := by
  have : i.toNat ≠ 0 := fun h => hi (BitVec.eq_of_toNat_eq h)
  rw [BitVec.toNat_sub]
  have := i.isLt
  simp only [BitVec.ofNat_eq_ofNat, BitVec.toNat_ofNat]
  omega

/-- A set of links to reads has no more links than there are reads. -/
theorem card_links {links : Finset (BitVec 32)} (h : ∀ x ∈ links, x ≠ 0 ∧ x.toNat ≤ reads.length) :
    links.card ≤ reads.length := by
  have hsub : links.image BitVec.toNat ⊆ Finset.Icc 1 reads.length := fun n hn => by
    obtain ⟨x, hx, rfl⟩ := Finset.mem_image.mp hn
    obtain ⟨hne, hle⟩ := h x hx
    have : x.toNat ≠ 0 := fun h => hne (BitVec.eq_of_toNat_eq h)
    exact Finset.mem_Icc.mpr ⟨by omega, hle⟩
  have hcard := Finset.card_le_card hsub
  rwa [Finset.card_image_of_injective _ fun _ _ => BitVec.eq_of_toNat_eq, Nat.card_Icc,
    Nat.add_sub_cancel] at hcard

/-- The packed read of a link. -/
def Packed (reads : List AbsentRead) (i : BitVec 32) (packed : U64) : Prop :=
  i ≠ 0 ∧ ∃ read, reads[(i - 1).toNat]? = some read ∧ packed = pack (fold read.key) (i - 1)

/-- **The walk ends**, as the links passed are distinct, and packs the reads of the list. -/
theorem collect_spec (hacyclic : Acyclic reads) {head i : BitVec 32} (hlinked : Linked reads head)
    (hreach : Relation.ReflTransGen (Next reads) head i) {seen : Finset (BitVec 32)} {fuel : ℕ}
    (hseen : ∀ x ∈ seen, x ≠ 0 ∧ x.toNat ≤ reads.length ∧ Relation.TransGen (Next reads) x i)
    (hfuel : reads.length < fuel + seen.card) :
    ∃ order, collect reads fuel i = some order ∧
      ∀ packed, packed ∈ order ↔ ∃ x, Relation.ReflTransGen (Next reads) i x ∧
        Packed reads x packed := by
  induction fuel generalizing i seen with
  | zero =>
    have := card_links fun x hx => ⟨(hseen x hx).1, (hseen x hx).2.1⟩
    omega
  | succ fuel ih =>
    rw [collect]
    by_cases hi : i = 0
    · subst hi
      refine ⟨[], if_pos rfl, fun packed => ⟨fun h => absurd h not_mem_nil, ?_⟩⟩
      rintro ⟨x, hx, hne, -⟩
      rcases Relation.ReflTransGen.cases_head hx with rfl | ⟨y, hy, -⟩
      · exact absurd rfl hne
      · exact absurd rfl hy.1
    · have hle := hlinked i hreach
      have hlt : (i - 1).toNat < reads.length := by
        have := toNat_pred hi
        omega
      have hread := getElem?_eq_getElem hlt
      have hnext : Next reads i reads[(i - 1).toNat].prev := ⟨hi, _, hread, rfl⟩
      have hnew : i ∉ seen := fun hmem => hacyclic i (hseen i hmem).2.2
      obtain ⟨order, hrun, hmem⟩ := @ih _ (hreach.tail hnext) (insert i seen) (fun x hx => by
        rcases Finset.mem_insert.mp hx with rfl | hx
        · exact ⟨hi, hle, .single hnext⟩
        · obtain ⟨hne, hxle, hpath⟩ := hseen x hx
          exact ⟨hne, hxle, hpath.tail hnext⟩) (by rw [Finset.card_insert_of_notMem hnew]; omega)
      rw [if_neg hi, hread]
      simp only [Option.bind_eq_bind, Option.bind_some, hrun]
      refine ⟨_, rfl, fun packed => ?_⟩
      rw [mem_cons, hmem]
      constructor
      · rintro (rfl | ⟨x, hx, hpacked⟩)
        · exact ⟨i, .refl, hi, _, hread, rfl⟩
        · exact ⟨x, .head hnext hx, hpacked⟩
      · rintro ⟨x, hx, hpacked⟩
        rcases Relation.ReflTransGen.cases_head hx with rfl | ⟨y, hy, hyx⟩
        · obtain ⟨-, read, hread', rfl⟩ := hpacked
          rw [hread] at hread'
          cases hread'
          exact .inl rfl
        · obtain ⟨-, read, hread', rfl⟩ := hy
          rw [hread] at hread'
          cases hread'
          exact .inr ⟨x, hyx, hpacked⟩

/-! ## The packed reads -/

theorem toNat_pack (fold i : BitVec 32) : (pack fold i).toNat = fold.toNat * 2 ^ 32 + i.toNat := by
  have hf := fold.isLt
  have hi := i.isLt
  rw [pack, BitVec.toNat_or, BitVec.toNat_shiftLeft, BitVec.toNat_setWidth, BitVec.toNat_setWidth,
    Nat.mod_eq_of_lt (by omega : fold.toNat < 2 ^ 64),
    Nat.mod_eq_of_lt (by omega : i.toNat < 2 ^ 64), Nat.shiftLeft_eq,
    Nat.mod_eq_of_lt (by omega), ← Nat.shiftLeft_eq, Nat.shiftLeft_add_eq_or_of_lt hi]

theorem pack_high (fold i : BitVec 32) : (pack fold i >>> 32).toNat = fold.toNat := by
  have hi := i.isLt
  rw [BitVec.toNat_ushiftRight, toNat_pack, Nat.shiftRight_eq_div_pow]
  omega

theorem pack_low (fold i : BitVec 32) : ((pack fold i).setWidth 32).toNat = i.toNat := by
  have hi := i.isLt
  rw [BitVec.toNat_setWidth, toNat_pack]
  omega

theorem Packed.spec {i : BitVec 32} {packed : U64} (h : Packed reads i packed) :
    (∃ read, reads[(i - 1).toNat]? = some read ∧ read.key = keyOf reads packed) ∧
      (packed >>> 32).toNat = (fold (keyOf reads packed)).toNat := by
  obtain ⟨-, read, hread, rfl⟩ := h
  have hkey : keyOf reads (pack (fold read.key) (i - 1)) = read.key := by
    rw [keyOf, pack_low, hread]
    rfl
  exact ⟨⟨read, hread, hkey.symm⟩, by rw [pack_high, hkey]⟩

/-! ## The look back -/

/-- Packed reads in ascending order, each under the fold of its key. -/
structure Ordered (reads : List AbsentRead) (order : List U64) : Prop where
  ascending : order.Pairwise fun a b : U64 => (a >>> 32).toNat ≤ (b >>> 32).toNat
  folds : ∀ packed ∈ order, (packed >>> 32).toNat = (fold (keyOf reads packed)).toNat

/-- **The look back finds every read of the key before.**  A fold that differs is smaller, and so
are all folds before it: none of them is the key's. -/
theorem repeats_iff {order : List U64} (h : Ordered reads order) {j k : ℕ} (hj : j < order.length)
    (hk : k ≤ j) :
    repeats reads order order[j] (keyOf reads order[j]) k = true ↔
      keyOf reads order[j] ∈ (order.take k).map (keyOf reads) := by
  induction k with
  | zero => simp [repeats]
  | succ k ih =>
    have hkl : k < order.length := by omega
    rw [repeats, getElem?_eq_getElem hkl, take_succ_eq_append_getElem hkl, map_append, mem_append]
    dsimp only
    have hfold := h.folds _ (getElem_mem hj)
    by_cases heq : order[k] >>> 32 = order[j] >>> 32
    · rw [if_pos heq, Bool.or_eq_true, decide_eq_true_iff, ih (by omega), map_singleton, mem_singleton]
      constructor
      · rintro (hkey | hmem)
        · exact .inr hkey.symm
        · exact .inl hmem
      · rintro (hmem | hkey)
        · exact .inr hmem
        · exact .inl hkey.symm
    · rw [if_neg heq]
      refine ⟨fun h => absurd h (by simp), fun hmem => absurd ?_ heq⟩
      rw [← mem_append, ← map_append, ← take_succ_eq_append_getElem hkl] at hmem
      obtain ⟨before, hbefore, hkey⟩ := mem_map.mp hmem
      obtain ⟨m, hm, rfl⟩ := getElem_of_mem hbefore
      rw [length_take] at hm
      rw [getElem_take] at hkey
      -- the fold at `k` lies between two equal folds
      have hfold' := h.folds _ (getElem_mem (by omega : m < order.length))
      rw [hkey, ← hfold] at hfold'
      have hle : (order[m] >>> 32).toNat ≤ (order[k] >>> 32).toNat := by
        rcases Nat.eq_or_lt_of_le (by omega : m ≤ k) with rfl | hlt
        · exact le_rfl
        · exact pairwise_iff_getElem.mp h.ascending m k (by omega) hkl hlt
      have hge := pairwise_iff_getElem.mp h.ascending k j hkl hj (by omega)
      exact BitVec.eq_of_toNat_eq (by omega)

/-- **Each key is kept at its first place.** -/
theorem keysFrom_spec {order : List U64} (h : Ordered reads order) (written : Bytes32 → Bool)
    {left j : ℕ} (hleft : j + left = order.length) :
    (keysFrom reads written order left j).Nodup ∧
      ∀ key, key ∈ keysFrom reads written order left j ↔
        written key = false ∧ key ∈ (order.drop j).map (keyOf reads) ∧
          key ∉ (order.take j).map (keyOf reads) := by
  induction left generalizing j with
  | zero =>
    rw [keysFrom, drop_eq_nil_of_le (by omega)]
    exact ⟨.nil, fun key => by simp⟩
  | succ left ih =>
    have hj : j < order.length := by omega
    obtain ⟨hnodup, hmem⟩ := @ih (j + 1) (by omega)
    have hrepeat := repeats_iff h hj le_rfl
    rw [keysFrom, getElem?_eq_getElem hj]
    dsimp only
    rw [drop_eq_getElem_cons hj, map_cons]
    rw [take_succ_eq_append_getElem hj, map_append, map_singleton] at hmem
    generalize keyOf reads order[j] = first at *
    by_cases hskip : (repeats reads order order[j] first j || written first) = true
    · rw [if_pos hskip]
      refine ⟨hnodup, fun key => (hmem key).trans ?_⟩
      rw [Bool.or_eq_true, hrepeat] at hskip
      constructor
      · rintro ⟨hw, hin, hout⟩
        exact ⟨hw, mem_cons_of_mem _ hin, fun hb => hout (mem_append_left _ hb)⟩
      · rintro ⟨hw, hin, hout⟩
        have hne : key ≠ first := by
          rintro rfl
          rcases hskip with hb | hw'
          · exact hout hb
          · rw [hw] at hw'
            cases hw'
        exact ⟨hw, (mem_cons.mp hin).resolve_left hne, fun hb => by
          rcases mem_append.mp hb with hb | hb
          · exact hout hb
          · exact hne (mem_singleton.mp hb)⟩
    · rw [if_neg hskip]
      rw [Bool.or_eq_true, hrepeat, not_or, Bool.not_eq_true] at hskip
      refine ⟨nodup_cons.mpr ⟨fun hin => ((hmem first).mp hin).2.2 (by simp), hnodup⟩, fun key => ?_⟩
      rw [mem_cons, hmem]
      constructor
      · rintro (rfl | ⟨hw, hin, hout⟩)
        · exact ⟨hskip.2, mem_cons_self, hskip.1⟩
        · exact ⟨hw, mem_cons_of_mem _ hin, fun hb => hout (mem_append_left _ hb)⟩
      · rintro ⟨hw, hin, hout⟩
        by_cases heq : key = first
        · exact .inl heq
        · refine .inr ⟨hw, (mem_cons.mp hin).resolve_left heq, fun hb => ?_⟩
          rcases mem_append.mp hb with hb | hb
          · exact hout hb
          · exact heq (mem_singleton.mp hb)

/-! ## The keys -/

theorem numbers_strictWeak : StrictWeak fun a b : U64 => decide (a < b) where
  asymm a b h := by
    rw [decide_eq_true_iff, BitVec.lt_def] at h
    rw [decide_eq_false_iff_not, BitVec.lt_def]
    omega
  trans a b c hab hbc := by
    rw [decide_eq_false_iff_not, BitVec.not_lt] at *
    exact BitVec.le_trans hab hbc

theorem ordered_sort (hsort : IsSort stdSort) {order : List U64}
    (h : ∀ packed ∈ order, ∃ i, Packed reads i packed) :
    Ordered reads (stdSort (fun a b => decide (a < b)) order) where
  ascending := by
    refine (hsort _ numbers_strictWeak order).2.imp fun {a b} hab => ?_
    rw [decide_eq_false_iff_not, BitVec.not_lt, BitVec.le_def] at hab
    rw [BitVec.toNat_ushiftRight, BitVec.toNat_ushiftRight, Nat.shiftRight_eq_div_pow,
      Nat.shiftRight_eq_div_pow]
    exact Nat.div_le_div_right hab
  folds packed hmem := by
    obtain ⟨i, hi⟩ := h packed ((hsort _ numbers_strictWeak order).1.mem_iff.mp hmem)
    exact hi.spec.2

/-- The keys of the collected reads that are not written, each once. -/
theorem absentReadKeys_of_collect (hsort : IsSort stdSort)
    {fuel : ℕ} {head : BitVec 32} {order : List U64} (hrun : collect reads fuel head = some order)
    (hpacked : ∀ packed ∈ order, ∃ i, Packed reads i packed) (written : Bytes32 → Bool) :
    ∃ keys, absentReadKeys reads stdSort fuel head written = some keys ∧ keys.Nodup ∧
      ∀ key, key ∈ keys ↔ key ∈ order.map (keyOf reads) ∧ written key = false := by
  obtain ⟨hnodup, hkeys⟩ := keysFrom_spec (ordered_sort hsort hpacked) written (Nat.zero_add _)
  refine ⟨_, by rw [absentReadKeys, hrun]; rfl, hnodup, fun key => (hkeys key).trans ?_⟩
  rw [drop_zero, take_zero, map_nil, ((hsort _ numbers_strictWeak order).1.map _).mem_iff]
  simp [and_comm]

/-- **The distinct keys of the absent reads.**  The walk along acyclic links ends, and the keys it
returns are those of the list that are not written, each once. -/
theorem absentReadKeys_correct (hsort : IsSort stdSort)
    (hacyclic : Acyclic reads) {head : BitVec 32} (hlinked : Linked reads head)
    (written : Bytes32 → Bool) {fuel : ℕ} (hfuel : reads.length < fuel) :
    ∃ keys, absentReadKeys reads stdSort fuel head written = some keys ∧ keys.Nodup ∧
      ∀ key, key ∈ keys ↔ Occurs reads head key ∧ written key = false := by
  obtain ⟨order, hrun, hmem⟩ :=
    @collect_spec reads hacyclic head head hlinked .refl ∅ fuel (by simp) (by simpa using hfuel)
  obtain ⟨keys, hkeys, hnodup, hin⟩ := absentReadKeys_of_collect hsort hrun (fun packed h => by
    obtain ⟨x, -, hx⟩ := (hmem packed).mp h
    exact ⟨x, hx⟩) written
  refine ⟨keys, hkeys, hnodup, fun key => (hin key).trans (and_congr_left fun _ => ?_)⟩
  rw [mem_map]
  constructor
  · rintro ⟨packed, hp, rfl⟩
    obtain ⟨x, hx, hpacked⟩ := (hmem packed).mp hp
    exact ⟨x, hx, hpacked.1, hpacked.spec.1⟩
  · rintro ⟨x, hx, hne, read, hread, rfl⟩
    have hpacked : Packed reads x (pack (fold read.key) (x - 1)) := ⟨hne, read, hread, rfl⟩
    obtain ⟨read', hread', hkey⟩ := hpacked.spec.1
    rw [hread] at hread'
    cases hread'
    exact ⟨_, (hmem _).mpr ⟨x, hx, hpacked⟩, hkey.symm⟩

/-- Three reads of two keys with one fold, each linked to the one before. -/
def sampleReads : List AbsentRead :=
  [⟨Bytes32.ofNat 1, 0⟩, ⟨Bytes32.ofNat (2 ^ 32), 1⟩, ⟨Bytes32.ofNat 1, 2⟩]

theorem sampleReads_next {i j : BitVec 32} (h : Next sampleReads i j) :
    j.toNat < i.toNat ∧ j.toNat ≤ 3 := by
  obtain ⟨hi, read, hread, rfl⟩ := h
  have hlt := (List.getElem?_eq_some_iff.mp hread).1
  have hpred := toNat_pred hi
  generalize (i - 1).toNat = n at hread hlt hpred
  have hn : n < 3 := hlt
  obtain rfl | rfl | rfl : n = 0 ∨ n = 1 ∨ n = 2 := by omega
  all_goals
    cases hread
    simp only [BitVec.ofNat_eq_ofNat, BitVec.toNat_ofNat]
    omega

theorem absentReadKeys_correct_colliding :
    fold (Bytes32.ofNat 1) = fold (Bytes32.ofNat (2 ^ 32)) ∧
      ∃ keys, absentReadKeys sampleReads insertionSort 4 3
        (fun key => key = Bytes32.ofNat 5) = some keys ∧ keys.Nodup ∧
        ∀ key, key ∈ keys ↔ Occurs sampleReads 3 key ∧ decide (key = Bytes32.ofNat 5) = false := by
  have hacyclic : Acyclic sampleReads := fun i h => by
    have hlt {x y : BitVec 32} (h : Relation.TransGen (Next sampleReads) x y) : y.toNat < x.toNat := by
      induction h with
      | single h => exact (sampleReads_next h).1
      | tail _ h ih => exact (sampleReads_next h).1.trans ih
    exact absurd (hlt h) (lt_irrefl _)
  have hlinked : Linked sampleReads 3 := fun i h => by
    rcases Relation.ReflTransGen.cases_tail h with rfl | ⟨x, -, hx⟩
    · decide
    · exact (sampleReads_next hx).2
  exact ⟨by decide, absentReadKeys_correct (fun _ => insertionSort_sorts) hacyclic hlinked _ (by decide)⟩

/-- **Up to their order these are the keys the walks of `CheckRoot` take**, for the reads of a
record in the order of their links. -/
theorem absentReadKeys_perm (hsort : IsSort stdSort)
    {fuel : ℕ} {head : BitVec 32} {order : List U64} (hrun : collect reads fuel head = some order)
    (hpacked : ∀ packed ∈ order, ∃ i, Packed reads i packed) (written : State.HashMap Bytes32) :
    ∃ keys, absentReadKeys reads stdSort fuel head (fun key => key ∈ written) = some keys ∧
      keys.Perm (Run.absentReadKeys (order.map (keyOf reads)) written) := by
  obtain ⟨keys, hkeys, hnodup, hin⟩ := absentReadKeys_of_collect hsort hrun hpacked fun key =>
    key ∈ written
  refine ⟨keys, hkeys, (perm_ext_iff_of_nodup hnodup ((nodup_dedup _).filter _)).mpr fun key => ?_⟩
  rw [hin, mem_filter, mem_dedup]
  simp

end AbsentReads
end Zilkworm.Run
