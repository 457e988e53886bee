/-
# The hash index refines a finite map

`core/common_zz/hash_index.hpp`: the index of the hash-state backend, open-addressed with linear
probing.  A bucket whose value is `kEmpty` is free; the table doubles before it would be more than
half full, moving its entries in the order of their buckets.

The key hash `key8` is any function.  `grow` has a loop without a bound of its own, which would go
on for ever in a table without a free bucket: there the model has no result.  Counters and positions
are `uint32_t`, written modulo `2 ^ 32`.
-/
import Zilkworm.Lib.LinearProbing
import Zilkworm.Lib.Words
import Zilkworm.Witness.MphfMap
import Zilkworm.Rlp.Primitives
import Mathlib.Data.Nat.Log

namespace Zilkworm.State

open List Lib Rlp Witness

/-- `Bucket`. -/
structure Bucket (n : ℕ) (V : Type) where
  key : FixedBytes n
  value : V

/-- `HashIndex`, for keys of `n` bytes. -/
structure HashIndex (n : ℕ) (V : Type) where
  buckets : List (Bucket n V)
  capacity : ℕ
  mask : ℕ
  size : ℕ

/-! ## Keys -/

section Keys

variable {n : ℕ}

/-- The 8 bytes at offset `o` of a key, as a word. -/
def keyWord (key : FixedBytes n) (o : ℕ) : BitVec (8 * 8) := wordOf 8 (slice key.val o 8)

/-- `key_eq_`. -/
def keyEq (bucketKey probe : FixedBytes n) : Bool :=
  if n % 8 = 0 then
    if keyWord bucketKey 0 ≠ keyWord probe 0 then false
    else
      let acc := (range (n / 8 - 1)).foldl
        (fun acc o => acc ||| (keyWord bucketKey (8 * (o + 1)) ^^^ keyWord probe (8 * (o + 1)))) 0
      acc = 0
  else bucketKey = probe

/-- The bytes `claim_` writes for a key. -/
def claimBytes (key : FixedBytes n) : Bytes :=
  if n % 8 = 0 then (range (n / 8)).flatMap fun o => wordBytes (keyWord key (8 * o)) else key.val

end Keys

/-- `kMinCapacity`. -/
def kMinCapacity : ℕ := 8

/-- `capacity_for`. -/
def capacityFor (entries : ℕ) : ℕ := min (2 ^ Nat.clog 2 (max kMinCapacity (2 * entries))) (2 ^ 31)

/-- `Insert`. -/
inductive Insert where
  | inserted
  | existed
  | full
  deriving DecidableEq

/-- How a probe ends: at a free bucket, at the key's bucket, or after `capacity` buckets. -/
inductive Probe where
  | free (i : ℕ)
  | hit (i : ℕ)
  | exhausted

namespace HashIndex

section Model

variable {n : ℕ} {V : Type} [DecidableEq V] (key8 : FixedBytes n → UInt64) (kEmpty : V)
  (s : HashIndex n V) (i : ℕ) (key : FixedBytes n)

/-- `Bucket{}`. -/
def emptyBucket : Bucket n V := ⟨FixedBytes.zero n, kEmpty⟩

/-- The constructor. -/
def create (expectedEntries : ℕ) : HashIndex n V where
  buckets := replicate (capacityFor expectedEntries) (emptyBucket kEmpty)
  capacity := capacityFor expectedEntries
  mask := capacityFor expectedEntries - 1
  size := 0

/-- `reserve`. -/
def reserve (expected : ℕ) : HashIndex n V :=
  if s.size ≠ 0 then s
  else
    let want := capacityFor expected
    if want ≤ s.capacity then s
    else { s with buckets := replicate want (emptyBucket kEmpty), capacity := want, mask := want - 1 }

/-- `index_of`. -/
def indexOf (k8 : UInt64) : ℕ := (mix64Body k8).toNat &&& s.mask

/-- `(i + 1u) & mask_`. -/
def next : ℕ := (i + 1) % 2 ^ 32 &&& s.mask

/-- `buckets_[i]`. -/
def bucket : Bucket n V := s.buckets.getD i (emptyBucket kEmpty)

/-- The bucket `i` after `claim_`. -/
def claim (value : V) : HashIndex n V :=
  { s with buckets := s.buckets.set i ⟨FixedBytes.load n (claimBytes key), value⟩ }

/-- The loop of `grow_` for a free bucket. -/
def freeFrom : ℕ → ℕ → Option ℕ
  | 0, _ => none
  | probes + 1, i => if (s.bucket kEmpty i).value = kEmpty then some i else freeFrom probes (s.next i)

/-- The rehash of a bucket in `grow_`. -/
def rehash (b : Bucket n V) : Option (HashIndex n V) :=
  if b.value = kEmpty then some s
  else do
    let i ← s.freeFrom kEmpty s.capacity (s.indexOf (key8 b.key))
    return s.claim i b.key b.value

/-- `grow_`. -/
def grow : Option (HashIndex n V) :=
  let capacity := 2 * s.capacity % 2 ^ 32
  s.buckets.foldlM (rehash key8 kEmpty)
    { s with
      buckets := replicate capacity (emptyBucket kEmpty), capacity := capacity,
      mask := (capacity + (2 ^ 32 - 1)) % 2 ^ 32 }

/-- The probe loop of `insert`, `try_insert` and `find`. -/
def probe : ℕ → ℕ → Probe
  | 0, _ => .exhausted
  | probes + 1, i =>
    if (s.bucket kEmpty i).value = kEmpty then .free i
    else if keyEq (s.bucket kEmpty i).key key then .hit i
    else probe probes (s.next i)

/-- The probe for a key, from its home. -/
def probeKey : Probe :=
  s.probe kEmpty key s.capacity (s.indexOf (key8 key))

/-- The growth at the start of `insert` and `try_insert`. -/
def growFor : Option (HashIndex n V) :=
  if (s.size + 1) * 2 > s.capacity then s.grow key8 kEmpty else some s

/-- A bucket claimed for a key that was absent. -/
def addAt (value : V) : HashIndex n V :=
  { s.claim i key value with size := (s.size + 1) % 2 ^ 32 }

/-- `insert`. -/
def insert (value : V) : Option (Bool × HashIndex n V) :=
  if value = kEmpty then some (false, s)
  else do
    let s ← s.growFor key8 kEmpty
    match s.probeKey key8 kEmpty key with
    | .free i => return (true, s.addAt i key value)
    | .hit i =>
      return (true, { s with buckets := s.buckets.set i { s.bucket kEmpty i with value := value } })
    | .exhausted => return (false, s)

/-- `try_insert`. -/
def tryInsert (value : V) : Option (Insert × HashIndex n V) :=
  if value = kEmpty then some (.full, s)
  else do
    let s ← s.growFor key8 kEmpty
    match s.probeKey key8 kEmpty key with
    | .free i => return (.inserted, s.addAt i key value)
    | .hit _ => return (.existed, s)
    | .exhausted => return (.full, s)

/-- `find`. -/
def find : Option V :=
  match s.probeKey key8 kEmpty key with
  | .free _ => none
  | .hit i => some (s.bucket kEmpty i).value
  | .exhausted => none

/-- `clear`. -/
def clear : HashIndex n V :=
  if s.size = 0 then s
  else { s with buckets := replicate s.buckets.length (emptyBucket kEmpty), size := 0 }

end Model

end HashIndex

/-! ## Keys are compared and copied as a whole -/

section Keys

variable {n : ℕ}

theorem flatMap_slice (b : Bytes) (w k : ℕ) :
    ((range k).flatMap fun o => slice b (w * o) w) = b.take (w * k) := by
  induction k with
  | zero => rfl
  | succ k ih =>
    rw [range_succ, flatMap_append, ih, flatMap_singleton, Nat.mul_succ, take_add]
    rfl

/-- A key is its words. -/
theorem keyWords (hn : n % 8 = 0) (key : FixedBytes n) :
    ((range (n / 8)).flatMap fun o => wordBytes (keyWord key (8 * o))) = key.val := by
  have hlen : 8 * (n / 8) = n := by omega
  have hword (o : ℕ) (ho : o ∈ range (n / 8)) : wordBytes (keyWord key (8 * o)) =
      slice key.val (8 * o) 8 := by
    rw [mem_range] at ho
    exact wordBytes_wordOf (slice_length_of_le (by rw [key.2]; omega))
  rw [flatMap_congr hword, flatMap_slice, hlen, take_of_length_le key.2.le]

theorem foldl_or_eq_zero {w : ℕ} {ι : Type} (f : ι → BitVec w) (l : List ι) (a : BitVec w) :
    l.foldl (fun acc o => acc ||| f o) a = 0 ↔ a = 0 ∧ ∀ o ∈ l, f o = 0 := by
  induction l generalizing a with
  | nil => simp
  | cons o l ih =>
    rw [foldl_cons, ih, forall_mem_cons, ← and_assoc]
    refine and_congr_left fun _ => BitVec.or_eq_zero_iff

theorem keyEq_iff (a b : FixedBytes n) : keyEq a b = true ↔ a = b := by
  constructor
  · intro h
    unfold keyEq at h
    split_ifs at h with hn hfirst
    · have hrest := (foldl_or_eq_zero _ _ _).mp (of_decide_eq_true h)
      have hwords (o : ℕ) (ho : o ∈ range (n / 8)) : wordBytes (keyWord a (8 * o)) =
          wordBytes (keyWord b (8 * o)) := by
        rw [mem_range] at ho
        rcases Nat.eq_zero_or_pos o with rfl | hpos
        · rw [not_not.mp hfirst]
        · have hxor := hrest.2 (o - 1) (mem_range.mpr (by omega))
          rw [Nat.sub_add_cancel hpos] at hxor
          rw [BitVec.xor_eq_zero_iff.mp hxor]
      rw [Subtype.ext_iff, ← keyWords hn a, ← keyWords hn b, flatMap_congr hwords]
    · exact of_decide_eq_true h
  · rintro rfl
    unfold keyEq
    split_ifs with hn hfirst
    · exact absurd rfl hfirst
    · exact decide_eq_true ((foldl_or_eq_zero _ _ _).mpr ⟨rfl, fun o _ => BitVec.xor_self⟩)
    · exact decide_eq_true rfl

theorem load_claimBytes (key : FixedBytes n) : FixedBytes.load n (claimBytes key) = key := by
  unfold claimBytes
  split_ifs with hn
  · rw [keyWords hn, FixedBytes.load_self]
  · exact FixedBytes.load_self key

end Keys

/-! ## The table behind the buckets -/

namespace HashIndex

variable {n : ℕ} {V : Type} {key8 : FixedBytes n → UInt64} {kEmpty : V} {s t : HashIndex n V}
  {m : FixedBytes n → Option V}

/-- The start of a key's probe sequence, before it is reduced to the table. -/
def home (key8 : FixedBytes n → UInt64) (key : FixedBytes n) : ℕ := (mix64Body (key8 key)).toNat

/-- A table of a power of two of buckets, with its mask. -/
structure Shape (s : HashIndex n V) : Prop where
  pow : ∃ e, 3 ≤ e ∧ e ≤ 31 ∧ s.capacity = 2 ^ e
  mask : s.mask = s.capacity - 1
  length : s.buckets.length = s.capacity

section Shapes

variable (h : Shape s)

include h

theorem Shape.ge : 8 ≤ s.capacity := by
  obtain ⟨e, he, -, hc⟩ := h.pow
  rw [hc]
  exact Nat.pow_le_pow_right (n := 2) (by decide) he

theorem Shape.le : s.capacity ≤ 2 ^ 31 := by
  obtain ⟨e, -, he, hc⟩ := h.pow
  rw [hc]
  exact Nat.pow_le_pow_right (by decide) he

theorem Shape.mod_lt (x : ℕ) : x % s.capacity < s.capacity := Nat.mod_lt _ (by have := h.ge; omega)

theorem Shape.and_mask (x : ℕ) : x &&& s.mask = x % s.capacity := by
  obtain ⟨e, -, -, hc⟩ := h.pow
  rw [h.mask, hc, Nat.and_two_pow_sub_one_eq_mod]

theorem Shape.indexOf_eq (key : FixedBytes n) : s.indexOf (key8 key) = home key8 key % s.capacity :=
  h.and_mask _

theorem Shape.next_eq (x : ℕ) : s.next (x % s.capacity) = (x + 1) % s.capacity := by
  have hlt := h.mod_lt x
  have hle := h.le
  rw [next, Nat.mod_eq_of_lt (by omega), h.and_mask, Nat.mod_add_mod]

theorem Shape.set (i : ℕ) (b : Bucket n V) (size : ℕ) :
    Shape { s with buckets := s.buckets.set i b, size := size } :=
  ⟨h.pow, h.mask, by rw [length_set, h.length]⟩

theorem Shape.getElem? (kEmpty : V) {i : ℕ} (hi : i < s.capacity) :
    s.buckets[i]? = some (s.bucket kEmpty i) := by
  have hi' : i < s.buckets.length := h.length ▸ hi
  rw [bucket, getD_eq_getElem?_getD, getElem?_eq_getElem hi', Option.getD_some]

end Shapes

theorem claim_eq (s : HashIndex n V) (i : ℕ) (key : FixedBytes n) (v : V) :
    s.claim i key v = { s with buckets := s.buckets.set i ⟨key, v⟩, size := s.size } := by
  rw [claim, load_claimBytes]

variable [DecidableEq V]

/-- The entry of a bucket, if it is not free. -/
def slots (kEmpty : V) (s : HashIndex n V) (i : ℕ) : Option (FixedBytes n × V) :=
  (s.buckets[i]?).bind fun b => if b.value = kEmpty then none else some (b.key, b.value)

theorem Shape.slots_eq_none (h : Shape s) {i : ℕ} (hi : i < s.capacity) :
    s.slots kEmpty i = none ↔ (s.bucket kEmpty i).value = kEmpty := by
  rw [slots, h.getElem? kEmpty hi, Option.bind_some]
  split_ifs with hv <;> simp [hv]

theorem Shape.bucket_eq (h : Shape s) {i : ℕ} (hi : i < s.capacity) {e : FixedBytes n × V}
    (he : s.slots kEmpty i = some e) : s.bucket kEmpty i = ⟨e.1, e.2⟩ ∧ e.2 ≠ kEmpty := by
  rw [slots, h.getElem? kEmpty hi, Option.bind_some] at he
  split_ifs at he with hv
  cases he
  exact ⟨rfl, hv⟩

theorem slots_replicate (c size mask capacity : ℕ) :
    slots kEmpty (⟨replicate c (emptyBucket kEmpty), capacity, mask, size⟩ : HashIndex n V) =
      fun _ => none := by
  funext i
  rw [slots, getElem?_replicate]
  split_ifs
  · exact if_pos rfl
  · rfl

/-- A bucket written with a value that is not the sentinel. -/
theorem slots_set (h : Shape s) {i : ℕ} (hi : i < s.capacity) {v : V} (hv : v ≠ kEmpty)
    (key : FixedBytes n) (size : ℕ) :
    slots kEmpty { s with buckets := s.buckets.set i ⟨key, v⟩, size := size } =
      Function.update (s.slots kEmpty) i (some (key, v)) := by
  funext j
  rcases eq_or_ne j i with rfl | hne
  · rw [Function.update_self, slots, getElem?_set_self (h.length ▸ hi), Option.bind_some, if_neg hv]
  · rw [Function.update_of_ne hne, slots, getElem?_set_ne hne.symm, slots]

/-! ## Probing -/

section Probing

variable {key : FixedBytes n} {a d : ℕ}

/-- **The probe of a key** ends where its sequence first meets a free bucket or the key. -/
theorem probe_eq (h : Shape s) (hstop : Stops s.capacity (s.slots kEmpty) key a d) :
    s.probe kEmpty key s.capacity (a % s.capacity) =
      if s.slots kEmpty ((a + d) % s.capacity) = none then .free ((a + d) % s.capacity)
      else .hit ((a + d) % s.capacity) := by
  -- from the bucket `u` places on, with enough probes left
  have hgo (u probes : ℕ) (hu : u ≤ d) (hprobes : d - u < probes) :
      s.probe kEmpty key probes ((a + u) % s.capacity) =
        if s.slots kEmpty ((a + d) % s.capacity) = none then .free ((a + d) % s.capacity)
        else .hit ((a + d) % s.capacity) := by
    induction probes generalizing u with
    | zero => omega
    | succ probes ih =>
      rw [probe]
      rcases Nat.lt_or_ge u d with hud | hud
      · obtain ⟨e, he, hne⟩ := hstop.passed u hud
        rw [if_neg (by rw [← h.slots_eq_none (h.mod_lt _), he]; nofun),
          if_neg (by rw [keyEq_iff, (h.bucket_eq (h.mod_lt _) he).1]; exact hne), h.next_eq,
          Nat.add_assoc]
        exact ih (u + 1) (by omega) (by omega)
      · obtain rfl : u = d := by omega
        rcases hfree : s.slots kEmpty ((a + u) % s.capacity) with - | e
        · rw [if_pos ((h.slots_eq_none (h.mod_lt _)).mp hfree), if_pos rfl]
        · rw [if_neg (by rw [← h.slots_eq_none (h.mod_lt _), hfree]; nofun),
            if_pos (by rw [keyEq_iff,
            (h.bucket_eq (h.mod_lt _) hfree).1]; exact hstop.stop e hfree), if_neg nofun]
  exact hgo 0 s.capacity (by omega) (by have := hstop.lt; omega)

/-- The loop of `grow_` ends at the first free bucket of the key's sequence. -/
theorem freeFrom_eq (h : Shape s) (hstop : Stops s.capacity (s.slots kEmpty) key a d)
    (hfree : s.slots kEmpty ((a + d) % s.capacity) = none) :
    s.freeFrom kEmpty s.capacity (a % s.capacity) = some ((a + d) % s.capacity) := by
  have hgo (u probes : ℕ) (hu : u ≤ d) (hprobes : d - u < probes) :
      s.freeFrom kEmpty probes ((a + u) % s.capacity) = some ((a + d) % s.capacity) := by
    induction probes generalizing u with
    | zero => omega
    | succ probes ih =>
      rw [freeFrom]
      rcases Nat.lt_or_ge u d with hud | hud
      · obtain ⟨e, he, -⟩ := hstop.passed u hud
        rw [if_neg (by rw [← h.slots_eq_none (h.mod_lt _), he]; nofun), h.next_eq, Nat.add_assoc]
        exact ih (u + 1) (by omega) (by omega)
      · obtain rfl : u = d := by omega
        rw [if_pos ((h.slots_eq_none (h.mod_lt _)).mp hfree)]
  exact hgo 0 s.capacity (by omega) (by have := hstop.lt; omega)

end Probing

/-! ## The refinement -/

/-- **The index refines the map**: its buckets hold the entries of the map in reach of their homes,
and at most half of them are in use. -/
structure Refines (key8 : FixedBytes n → UInt64) (kEmpty : V) (s : HashIndex n V)
    (m : FixedBytes n → Option V) :
    Prop where
  shape : Shape s
  probing : Probing s.capacity (home key8) (s.slots kEmpty)
  holds : Holds s.capacity (s.slots kEmpty) m
  size : s.size = (occupied s.capacity (s.slots kEmpty)).card
  load : s.size * 2 ≤ s.capacity

/-- An empty table refines the empty map. -/
theorem refines_empty {c mask : ℕ} (hpow : ∃ e, 3 ≤ e ∧ e ≤ 31 ∧ c = 2 ^ e) (hmask : mask = c - 1) :
    Refines key8 kEmpty (⟨replicate c (emptyBucket kEmpty), c, mask, 0⟩ : HashIndex n V)
      fun _ => none := by
  refine ⟨⟨hpow, hmask, length_replicate⟩, ?_, ?_, ?_, Nat.zero_le _⟩ <;> rw [slots_replicate]
  · exact .empty _ _
  · exact .empty _
  · simp [occupied]

theorem capacityFor_pow (entries : ℕ) : ∃ e, 3 ≤ e ∧ e ≤ 31 ∧ capacityFor entries = 2 ^ e := by
  have hthree : 3 ≤ Nat.clog 2 (max kMinCapacity (2 * entries)) :=
    (Nat.clog_mono_right 2 (le_max_left kMinCapacity (2 * entries))).trans' (by decide)
  rcases le_total (Nat.clog 2 (max kMinCapacity (2 * entries))) 31 with h | h
  · exact ⟨_, hthree, h, min_eq_left (Nat.pow_le_pow_right (by decide) h)⟩
  · exact ⟨31, by decide, le_rfl, min_eq_right (Nat.pow_le_pow_right (by decide) h)⟩

section Lookups

variable (h : Refines key8 kEmpty s m)

include h

theorem Refines.exists_stop (key : FixedBytes n) :
    ∃ d, Stops s.capacity (s.slots kEmpty) key (home key8 key) d := by
  have := h.shape.ge
  have hload := h.load
  rw [h.size] at hload
  obtain ⟨j, hj, hfree⟩ := @exists_free _ _ s.capacity (s.slots kEmpty) (by omega)
  exact Lib.exists_stop hj hfree key (home key8 key)

/-- How a probe ends, in terms of the map. -/
theorem Refines.probeKey (key : FixedBytes n) :
    ∃ d, Stops s.capacity (s.slots kEmpty) key (home key8 key) d ∧
      ((m key = none ∧ s.slots kEmpty ((home key8 key + d) % s.capacity) = none ∧
          s.probeKey key8 kEmpty key = .free ((home key8 key + d) % s.capacity)) ∨
        ∃ v, m key = some v ∧ s.slots kEmpty ((home key8 key + d) % s.capacity) = some (key, v) ∧
          s.probeKey key8 kEmpty key = .hit ((home key8 key + d) % s.capacity)) := by
  obtain ⟨d, hstop⟩ := h.exists_stop key
  refine ⟨d, hstop, ?_⟩
  have hprobe := probe_eq h.shape hstop
  rw [← h.shape.indexOf_eq] at hprobe
  rcases hfree : s.slots kEmpty ((home key8 key + d) % s.capacity) with - | ⟨k, v⟩
  · rw [hfree, if_pos rfl] at hprobe
    exact .inl ⟨h.holds.eq_none.mpr (h.probing.absent hstop hfree), rfl, hprobe⟩
  · obtain rfl : k = key := hstop.stop _ hfree
    rw [hfree, if_neg nofun] at hprobe
    exact .inr ⟨v, (h.holds k v).mpr ⟨_, h.shape.mod_lt _, hfree⟩, rfl, hprobe⟩

/-- **`find` is the map.** -/
theorem Refines.find_eq (key : FixedBytes n) : s.find key8 kEmpty key = m key := by
  obtain ⟨d, -, ⟨hnone, -, hprobe⟩ | ⟨v, hsome, hslot, hprobe⟩⟩ := h.probeKey key
  · rw [find, hprobe, hnone]
  · rw [find, hprobe, hsome]
    dsimp only
    rw [(h.shape.bucket_eq (h.shape.mod_lt _) hslot).1]

/-- A key that is absent is added. -/
theorem Refines.addAt {key : FixedBytes n} {d : ℕ} {v : V} (hv : v ≠ kEmpty)
    (hroom : (s.size + 1) * 2 ≤ s.capacity)
    (hstop : Stops s.capacity (s.slots kEmpty) key (home key8 key) d)
    (hfree : s.slots kEmpty ((home key8 key + d) % s.capacity) = none) :
    Refines key8 kEmpty (s.addAt ((home key8 key + d) % s.capacity) key v)
      (Function.update m key (some v)) := by
  have hpos := h.shape.mod_lt (home key8 key + d)
  have hle := h.shape.le
  have hslots := slots_set h.shape hpos hv key ((s.size + 1) % 2 ^ 32)
  have hsize : (s.size + 1) % 2 ^ 32 = s.size + 1 := Nat.mod_eq_of_lt (by omega)
  rw [HashIndex.addAt, claim_eq]
  refine ⟨h.shape.set _ _ _, ?_, ?_, ?_, ?_⟩
  · rw [hslots]
    exact h.probing.place v hstop hfree
  · rw [hslots]
    exact h.holds.update h.probing hpos key v (.inl ⟨hfree, h.probing.absent hstop hfree⟩)
  · rw [hslots]
    exact hsize.trans ((congrArg (· + 1) h.size).trans (card_occupied_place hpos hfree _).symm)
  · exact (congrArg (· * 2) hsize).trans_le hroom

/-- The value of a key that is present is replaced. -/
theorem Refines.replace {key : FixedBytes n} {i : ℕ} {v w : V} (hv : v ≠ kEmpty)
    (hi : i < s.capacity) (hslot : s.slots kEmpty i = some (key, w)) :
    Refines key8 kEmpty { s with buckets := s.buckets.set i { s.bucket kEmpty i with value := v } }
      (Function.update m key (some v)) := by
  rw [(h.shape.bucket_eq hi hslot).1]
  have hslots := slots_set h.shape hi hv key s.size
  refine ⟨h.shape.set _ _ s.size, ?_, ?_, ?_, h.load⟩
  · exact hslots ▸ h.probing.replace v hslot
  · exact hslots ▸ h.holds.update h.probing hi key v (.inr ⟨w, hslot⟩)
  · exact hslots ▸ h.size.trans (congrArg Finset.card (card_occupied_replace hslot _).symm)

/-- The index without entries. -/
theorem Refines.eq_none (hsize : s.size = 0) : m = fun _ => none := by
  funext key
  refine h.holds.eq_none.mpr fun i hi v hslot => ?_
  have hempty : occupied s.capacity (s.slots kEmpty) = ∅ :=
    Finset.card_eq_zero.mp (h.size.symm.trans hsize)
  have hmem : i ∈ occupied s.capacity (s.slots kEmpty) := by simp [occupied, hi, hslot]
  rw [hempty] at hmem
  cases hmem

theorem Refines.reserve (expected : ℕ) : Refines key8 kEmpty (s.reserve kEmpty expected) m := by
  rw [HashIndex.reserve]
  dsimp only
  split_ifs with hsize hwant
  · exact h
  · exact h
  · rw [h.eq_none (not_not.mp hsize), not_not.mp hsize]
    exact refines_empty (capacityFor_pow expected) rfl

theorem Refines.clear : Refines key8 kEmpty (s.clear kEmpty) fun _ => none := by
  rw [HashIndex.clear]
  split_ifs with hsize
  · rw [← h.eq_none hsize]
    exact h
  · rw [h.shape.length]
    exact refines_empty h.shape.pow h.shape.mask

end Lookups

/-! ## Growth -/

/-- A bucket moved into a table that has room and does not have its key. -/
theorem rehash_step (hs : Shape t) (hp : Probing t.capacity (home key8) (t.slots kEmpty))
    (hm : Holds t.capacity (t.slots kEmpty) m)
    (hroom : (occupied t.capacity (t.slots kEmpty)).card < t.capacity)
    {b : Bucket n V} (hb : b.value ≠ kEmpty) (hfresh : m b.key = none) :
    ∃ t', rehash key8 kEmpty t b = some t' ∧ Shape t' ∧ t'.capacity = t.capacity ∧ t'.size = t.size ∧
      Probing t.capacity (home key8) (t'.slots kEmpty) ∧
      Holds t.capacity (t'.slots kEmpty) (Function.update m b.key (some b.value)) ∧
      (occupied t.capacity (t'.slots kEmpty)).card =
        (occupied t.capacity (t.slots kEmpty)).card + 1 := by
  obtain ⟨j, hj, hfree⟩ := exists_free hroom
  obtain ⟨d, hstop⟩ := Lib.exists_stop hj hfree b.key (home key8 b.key)
  have habsent := hm.eq_none.mp hfresh
  have hnone : t.slots kEmpty ((home key8 b.key + d) % t.capacity) = none := by
    rcases h : t.slots kEmpty ((home key8 b.key + d) % t.capacity) with - | ⟨k, v⟩
    · rfl
    · obtain rfl : k = b.key := hstop.stop _ h
      exact absurd h (habsent _ (hs.mod_lt _) v)
  have hslots := slots_set hs (hs.mod_lt (home key8 b.key + d)) hb b.key t.size
  refine ⟨t.claim ((home key8 b.key + d) % t.capacity) b.key b.value, ?_, ?_⟩
  · rw [rehash, if_neg hb, hs.indexOf_eq, freeFrom_eq hs hstop hnone]
    rfl
  · rw [claim_eq]
    refine ⟨hs.set _ _ _, rfl, rfl, ?_, ?_, ?_⟩
    · rw [hslots]
      exact hp.place b.value hstop hnone
    · rw [hslots]
      exact hm.update hp (hs.mod_lt _) b.key b.value (.inl ⟨hnone, habsent⟩)
    · rw [hslots, card_occupied_place (hs.mod_lt _) hnone]

/-- **The rehash keeps the entries**: buckets of distinct keys are moved one by one. -/
theorem rehash_fold {l : List (Bucket n V)} (hs : Shape t)
    (hp : Probing t.capacity (home key8) (t.slots kEmpty))
    (hm : Holds t.capacity (t.slots kEmpty) m)
    (hroom : (occupied t.capacity (t.slots kEmpty)).card + l.length ≤ t.capacity)
    (hfresh : ∀ b ∈ l, b.value ≠ kEmpty → m b.key = none)
    (hdistinct : l.Pairwise fun a b => a.value ≠ kEmpty → b.value ≠ kEmpty → a.key ≠ b.key) :
    ∃ t' m', l.foldlM (rehash key8 kEmpty) t = some t' ∧ Shape t' ∧ t'.capacity = t.capacity ∧
      t'.size = t.size ∧
      Probing t.capacity (home key8) (t'.slots kEmpty) ∧ Holds t.capacity (t'.slots kEmpty) m' ∧
      ∀ k v, m' k = some v ↔ m k = some v ∨ ∃ b ∈ l, b.value ≠ kEmpty ∧ b.key = k ∧ b.value = v := by
  induction l generalizing t m with
  | nil => exact ⟨t, m, rfl, hs, rfl, rfl, hp, hm, fun k v => by simp⟩
  | cons b l ih =>
    rw [length_cons] at hroom
    rw [pairwise_cons] at hdistinct
    rw [foldlM_cons]
    by_cases hb : b.value = kEmpty
    · obtain ⟨t', m', hrun, hs', hc, hsize, hp', hm', hiff⟩ := ih hs hp hm (by omega)
        (fun b' hb' => hfresh b' (mem_cons_of_mem _ hb')) hdistinct.2
      refine ⟨t', m', ?_, hs', hc, hsize, hp', hm', fun k v => ?_⟩
      · rw [rehash, if_pos hb]
        exact hrun
      · rw [hiff]
        simp [hb]
    · have hnone := hfresh b mem_cons_self hb
      obtain ⟨t₁, hrun₁, hs₁, hc₁, hsize₁, hp₁, hm₁, hcard₁⟩ := rehash_step hs hp hm (by omega) hb hnone
      rw [← hc₁] at hp₁ hm₁ hcard₁
      obtain ⟨t', m', hrun, hs', hc, hsize, hp', hm', hiff⟩ :=
        ih hs₁ hp₁ hm₁ (by rw [hcard₁, hc₁]; omega)
        (fun b' hb' hne => by
          rw [Function.update_of_ne (hdistinct.1 b' hb' hb hne).symm]
          exact hfresh b' (mem_cons_of_mem _ hb') hne)
        hdistinct.2
      rw [hc₁] at hc hp' hm'
      refine ⟨t', m', ?_, hs', hc, hsize.trans hsize₁, hp', hm', fun k v => ?_⟩
      · rw [hrun₁]
        exact hrun
      · rw [hiff]
        rcases eq_or_ne k b.key with rfl | hk
        · rw [Function.update_self, hnone]
          simp [hb]
        · rw [Function.update_of_ne hk]
          simp [hb, hk.symm]

/-- The entries of the buckets. -/
theorem Shape.exists_slot (h : Shape s) (k : FixedBytes n) (v : V) :
    (∃ i < s.capacity, s.slots kEmpty i = some (k, v)) ↔ ∃ b ∈ s.buckets, b.value ≠ kEmpty ∧
      b.key = k ∧ b.value = v := by
  constructor
  · rintro ⟨i, hi, hslot⟩
    obtain ⟨hbucket, hv⟩ := h.bucket_eq hi hslot
    have hmem := mem_of_getElem? (h.getElem? kEmpty hi)
    rw [hbucket] at hmem
    exact ⟨_, hmem, hv, rfl, rfl⟩
  · rintro ⟨b, hb, hv, rfl, rfl⟩
    obtain ⟨i, hi, rfl⟩ := mem_iff_getElem.mp hb
    refine ⟨i, h.length ▸ hi, ?_⟩
    rw [slots, getElem?_eq_getElem hi, Option.bind_some, if_neg hv]

section Growth

variable (h : Refines key8 kEmpty s m)

include h

/-- The keys of the buckets in use are distinct. -/
theorem Refines.pairwise :
    s.buckets.Pairwise fun a b => a.value ≠ kEmpty → b.value ≠ kEmpty → a.key ≠ b.key := by
  rw [pairwise_iff_getElem]
  intro i j hi hj hij hvi hvj hkey
  have hslot (i : ℕ) (hi : i < s.buckets.length) (hv : s.buckets[i].value ≠ kEmpty) :
      s.slots kEmpty i = some (s.buckets[i].key, s.buckets[i].value) := by
    rw [slots, getElem?_eq_getElem hi, Option.bind_some, if_neg hv]
  have := h.probing.unique i (h.shape.length ▸ hi) j (h.shape.length ▸ hj) _ _ _ (hslot i hi hvi)
    (hkey ▸ hslot j hj hvj)
  omega

/-- **`grow_` keeps the map.** -/
theorem Refines.grow (hcap : s.capacity ≤ 2 ^ 30) :
    ∃ s', s.grow key8 kEmpty = some s' ∧ s'.capacity = 2 * s.capacity ∧ s'.size = s.size ∧
      Refines key8 kEmpty s' m := by
  have hge := h.shape.ge
  have hcapacity : 2 * s.capacity % 2 ^ 32 = 2 * s.capacity := Nat.mod_eq_of_lt (by omega)
  have hmask : (2 * s.capacity + (2 ^ 32 - 1)) % 2 ^ 32 = 2 * s.capacity - 1 := by omega
  obtain ⟨e, he, he', hpow⟩ := h.shape.pow
  have he30 : e ≤ 30 := (Nat.pow_le_pow_iff_right (by decide)).mp (hpow ▸ hcap)
  let t₀ : HashIndex n V :=
    ⟨replicate (2 * s.capacity) (emptyBucket kEmpty), 2 * s.capacity, 2 * s.capacity - 1, s.size⟩
  have hslots : t₀.slots kEmpty = fun _ => none := slots_replicate _ _ _ _
  have hshape : Shape t₀ :=
    ⟨⟨e + 1, by omega, by omega, by rw [Nat.pow_succ, Nat.mul_comm, ← hpow]⟩, rfl, length_replicate⟩
  obtain ⟨s', m', hrun, hs', hc, hsize, hp', hm', hiff⟩ :=
    @rehash_fold n V key8 kEmpty t₀ (fun _ => none) _ s.buckets hshape (hslots ▸ .empty _ _)
      (hslots ▸ .empty _)
      (by rw [hslots, h.shape.length]; simp [occupied, t₀]; omega) (fun _ _ _ => rfl) h.pairwise
  obtain rfl : m' = m := by
    funext k
    refine Option.ext fun v => ?_
    rw [hiff, h.holds k v, h.shape.exists_slot]
    simp
  rw [← hc] at hp' hm'
  have hcount : s.size = (occupied s'.capacity (s'.slots kEmpty)).card := by
    rw [h.size, ← h.probing.card_occupied h.holds, hp'.card_occupied hm']
  refine ⟨s', ?_, hc, hsize, hs', hp', hm', hsize.trans hcount, ?_⟩
  · rw [HashIndex.grow, hcapacity, hmask]
    exact hrun
  · rw [hsize, hc]
    show s.size * 2 ≤ 2 * s.capacity
    have := h.load
    omega

/-- Before a key is added there is room for it. -/
theorem Refines.growFor (hsize : s.size < 2 ^ 30) :
    ∃ s', s.growFor key8 kEmpty = some s' ∧ Refines key8 kEmpty s' m ∧
      (s'.size + 1) * 2 ≤ s'.capacity := by
  rw [HashIndex.growFor]
  split_ifs with hgrow
  · -- the capacity is a power of two below twice the bound on the size
    have hge := h.shape.ge
    obtain ⟨e, -, he, hpow⟩ := h.shape.pow
    have he30 : e ≤ 30 := by
      by_contra hgt
      obtain rfl : e = 31 := by omega
      omega
    have hcap : s.capacity ≤ 2 ^ 30 := hpow ▸ Nat.pow_le_pow_right (by decide) he30
    obtain ⟨s', hrun, hc, hs, h'⟩ := h.grow hcap
    have hload := h.load
    exact ⟨s', hrun, h', by rw [hs, hc]; omega⟩
  · exact ⟨s, rfl, h, by omega⟩

theorem Refines.insert (hsize : s.size < 2 ^ 30) (key : FixedBytes n) {v : V}
    (hv : v ≠ kEmpty) :
    ∃ s', s.insert key8 kEmpty key v = some (true, s') ∧
      Refines key8 kEmpty s' (Function.update m key (some v)) := by
  obtain ⟨s₁, hgrow, h₁, hroom⟩ := h.growFor hsize
  rw [HashIndex.insert, if_neg hv, hgrow]
  obtain ⟨d, hstop, ⟨-, hfree, hprobe⟩ | ⟨w, -, hslot, hprobe⟩⟩ := h₁.probeKey key
  · exact ⟨_, by rw [Option.bind_eq_bind, Option.bind_some, hprobe]; rfl, h₁.addAt hv hroom hstop hfree⟩
  · exact ⟨_, by rw [Option.bind_eq_bind, Option.bind_some, hprobe]; rfl,
      h₁.replace hv (h₁.shape.mod_lt _) hslot⟩

theorem Refines.tryInsert (hsize : s.size < 2 ^ 30) (key : FixedBytes n) {v : V}
    (hv : v ≠ kEmpty) :
    ∃ s', s.tryInsert key8 kEmpty key v = some (if m key = none then .inserted else .existed, s') ∧
      Refines key8 kEmpty s' (if m key = none then Function.update m key (some v) else m) := by
  obtain ⟨s₁, hgrow, h₁, hroom⟩ := h.growFor hsize
  rw [HashIndex.tryInsert, if_neg hv, hgrow]
  obtain ⟨d, hstop, ⟨hnone, hfree, hprobe⟩ | ⟨w, hsome, -, hprobe⟩⟩ := h₁.probeKey key
  · rw [if_pos hnone, if_pos hnone]
    exact ⟨_, by rw [Option.bind_eq_bind, Option.bind_some, hprobe]; rfl, h₁.addAt hv hroom hstop hfree⟩
  · rw [if_neg (by rw [hsome]; nofun), if_neg (by rw [hsome]; nofun)]
    exact ⟨_, by rw [Option.bind_eq_bind, Option.bind_some, hprobe]; rfl, h₁⟩

end Growth

/-! ## Runs -/

/-- A call. -/
inductive Call (n : ℕ) (V : Type) where
  | insert (key : FixedBytes n) (value : V)
  | tryInsert (key : FixedBytes n) (value : V)
  | find (key : FixedBytes n)
  | clear
  | reserve (expected : ℕ)

/-- What a call returns. -/
inductive Answer (V : Type) where
  | inserted (ok : Bool)
  | tried (result : Insert)
  | found (value : Option V)
  | done
  deriving DecidableEq

/-- A call made to the index. -/
def step (key8 : FixedBytes n → UInt64) (kEmpty : V) (s : HashIndex n V) :
    Call n V → Option (Answer V × HashIndex n V)
  | .insert key value => (s.insert key8 kEmpty key value).map fun r => (.inserted r.1, r.2)
  | .tryInsert key value => (s.tryInsert key8 kEmpty key value).map fun r => (.tried r.1, r.2)
  | .find key => some (.found (s.find key8 kEmpty key), s)
  | .clear => some (.done, s.clear kEmpty)
  | .reserve expected => some (.done, s.reserve kEmpty expected)

/-- Calls made one after the other, with their answers. -/
def run (key8 : FixedBytes n → UInt64) (kEmpty : V) (s : HashIndex n V) :
    List (Call n V) → Option (List (Answer V) × HashIndex n V)
  | [] => some ([], s)
  | call :: calls => do
    let (answer, s) ← step key8 kEmpty s call
    let (answers, s) ← run key8 kEmpty s calls
    return (answer :: answers, s)

/-- The keys a call may add. -/
def Call.keys : Call n V → List (FixedBytes n)
  | .insert key _ | .tryInsert key _ => [key]
  | _ => []

/-- The call passes no sentinel. -/
def Call.Proper (kEmpty : V) : Call n V → Prop
  | .insert _ value | .tryInsert _ value => value ≠ kEmpty
  | _ => True

/-- The call as an operation on a map: an insertion overwrites, a tried one keeps what is there. -/
def Call.onMap (m : FixedBytes n → Option V) : Call n V → Answer V × (FixedBytes n → Option V)
  | .insert key value => (.inserted true, Function.update m key (some value))
  | .tryInsert key value =>
    if m key = none then (.tried .inserted, Function.update m key (some value)) else (.tried .existed, m)
  | .find key => (.found (m key), m)
  | .clear => (.done, fun _ => none)
  | .reserve _ => (.done, m)

/-- The calls as operations on a map. -/
def runMap (m : FixedBytes n → Option V) : List (Call n V) → List (Answer V) × (FixedBytes n → Option V)
  | [] => ([], m)
  | call :: calls =>
    let (answer, m) := call.onMap m
    let (answers, m) := runMap m calls
    (answer :: answers, m)

/-- **A call refines its operation on the map.** -/
theorem Refines.step (h : Refines key8 kEmpty s m) {call : Call n V} (hcall : call.Proper kEmpty)
    (hsize : s.size < 2 ^ 30) :
    ∃ s', HashIndex.step key8 kEmpty s call = some ((call.onMap m).1, s') ∧
      Refines key8 kEmpty s' (call.onMap m).2 := by
  cases call with
  | insert key v =>
    obtain ⟨s', hrun, h'⟩ := h.insert hsize key hcall
    exact ⟨s', by rw [HashIndex.step, hrun]; rfl, h'⟩
  | tryInsert key v =>
    obtain ⟨s', hrun, h'⟩ := h.tryInsert hsize key hcall
    refine ⟨s', ?_, ?_⟩
    · rw [HashIndex.step, hrun, Call.onMap]
      split_ifs <;> rfl
    · rw [Call.onMap]
      split_ifs at h' ⊢ <;> exact h'
  | find key => exact ⟨s, by rw [HashIndex.step, h.find_eq]; rfl, h⟩
  | clear => exact ⟨_, rfl, h.clear⟩
  | reserve expected => exact ⟨_, rfl, h.reserve expected⟩

theorem Refines.size_eq (h : Refines key8 kEmpty s m) : s.size = {k | m k ≠ none}.ncard := by
  rw [h.size, h.probing.card_occupied h.holds]

omit [DecidableEq V] in
/-- The keys of the map after a call. -/
theorem Call.onMap_keys {call : Call n V} {S : Finset (FixedBytes n)} (hm : ∀ k, m k ≠ none → k ∈ S)
    (hcall : ∀ k ∈ call.keys, k ∈ S) : ∀ k, (call.onMap m).2 k ≠ none → k ∈ S := by
  intro k hk
  cases call with
  | insert key v =>
    rcases eq_or_ne k key with rfl | hne
    · exact hcall k (mem_singleton_self _)
    · exact hm k (by simpa only [Call.onMap, Function.update_of_ne hne] using hk)
  | tryInsert key v =>
    rcases eq_or_ne k key with rfl | hne
    · exact hcall k (mem_singleton_self _)
    · rw [Call.onMap] at hk
      split_ifs at hk
      · exact hm k (by simpa only [Function.update_of_ne hne] using hk)
      · exact hm k hk
  | find key => exact hm k hk
  | clear => exact absurd rfl hk
  | reserve expected => exact hm k hk

/-- **A run refines its operations on the map**, if its keys are fewer than `2 ^ 30`. -/
theorem Refines.run (h : Refines key8 kEmpty s m) {calls : List (Call n V)}
    (hproper : ∀ call ∈ calls, call.Proper kEmpty)
    {S : Finset (FixedBytes n)} (hS : S.card < 2 ^ 30) (hm : ∀ k, m k ≠ none → k ∈ S)
    (hcalls : ∀ call ∈ calls, ∀ k ∈ call.keys, k ∈ S) :
    ∃ s', HashIndex.run key8 kEmpty s calls = some ((runMap m calls).1, s') ∧
      Refines key8 kEmpty s' (runMap m calls).2 := by
  induction calls generalizing s m with
  | nil => exact ⟨s, rfl, h⟩
  | cons call calls ih =>
    have hsize : s.size < 2 ^ 30 := by
      rw [h.size_eq, ← Set.ncard_coe_finset] at *
      exact (Set.ncard_le_ncard hm (Finset.finite_toSet S)).trans_lt hS
    obtain ⟨s₁, hstep, h₁⟩ := h.step (hproper call mem_cons_self) hsize
    obtain ⟨s', hrun, h'⟩ := ih h₁ (fun c hc => hproper c (mem_cons_of_mem _ hc))
      (Call.onMap_keys hm (hcalls call mem_cons_self)) fun c hc => hcalls c (mem_cons_of_mem _ hc)
    refine ⟨s', ?_, h'⟩
    rw [HashIndex.run, hstep, Option.bind_eq_bind, Option.bind_some]
    dsimp only
    rw [hrun]
    rfl

/-- **The index refines a finite map.**  For every key hash, every expected size and every sequence
of calls without sentinel values that inserts fewer than `2 ^ 30` distinct keys: every call returns,
with the answer the map gives (so that no insertion reports a full table); `find` is the map; `size`
is the number of its keys; and the probe sequence of every key comes to a free bucket. -/
theorem hashIndex_refines_map (key8 : FixedBytes n → UInt64) (kEmpty : V) (expectedEntries : ℕ)
    (calls : List (Call n V))
    (hproper : ∀ call ∈ calls, call.Proper kEmpty)
    (hkeys : (calls.flatMap Call.keys).toFinset.card < 2 ^ 30) :
    ∃ s, HashIndex.run key8 kEmpty (create kEmpty expectedEntries) calls =
      some ((runMap (fun _ => none) calls).1, s) ∧
      (∀ key, s.find key8 kEmpty key = (runMap (fun _ => none) calls).2 key) ∧
      s.size = {k | (runMap (fun _ => none) calls).2 k ≠ none}.ncard ∧
      ∀ key, ∃ d < s.capacity, (s.bucket kEmpty ((s.indexOf (key8 key) + d) % s.capacity)).value =
        kEmpty := by
  have hcreate : Refines key8 kEmpty (create kEmpty expectedEntries : HashIndex n V) fun _ => none :=
    refines_empty (capacityFor_pow expectedEntries) rfl
  obtain ⟨s, hrun, h⟩ := hcreate.run hproper hkeys (fun k hk => absurd rfl hk) fun call hcall k hk =>
    mem_toFinset.mpr (mem_flatMap.mpr ⟨call, hcall, hk⟩)
  refine ⟨s, hrun, h.find_eq, h.size_eq, fun key => ?_⟩
  have hge := h.shape.ge
  have hload := h.load
  rw [h.size] at hload
  obtain ⟨j, hj, hfree⟩ := @exists_free _ _ s.capacity (s.slots kEmpty) (by omega)
  obtain ⟨d, hd, rfl⟩ := exists_offset hj (s.indexOf (key8 key))
  exact ⟨d, hd, (h.shape.slots_eq_none hj).mp hfree⟩

/-- Five keys that collide, of which one is written twice and one is tried again. -/
def collidingCalls : List (Call 1 ℕ) :=
  [.insert ⟨[1], rfl⟩ 10, .insert ⟨[2], rfl⟩ 20, .tryInsert ⟨[3], rfl⟩ 30, .insert ⟨[1], rfl⟩ 11,
    .insert ⟨[4], rfl⟩ 40,
    .insert ⟨[5], rfl⟩ 50, .tryInsert ⟨[2], rfl⟩ 21, .find ⟨[1], rfl⟩, .find ⟨[2], rfl⟩,
    .find ⟨[9], rfl⟩]

/-- The theorem at these calls, with the hash constant: the table grows at the fifth key. -/
theorem hashIndex_refines_map_colliding :
    ((HashIndex.run (fun _ => 0) 0 (create 0 0) collidingCalls).map
      fun r => (r.1.drop 7, r.2.size, r.2.capacity)) =
        some ([.found (some 11), .found (some 20), .found none], 5, 16) ∧
    ∃ s, HashIndex.run (fun _ => 0) 0 (create 0 0) collidingCalls =
      some ((runMap (fun _ => none) collidingCalls).1, s) ∧
      (∀ key, s.find (fun _ => 0) 0 key = (runMap (fun _ => none) collidingCalls).2 key) ∧
      s.size = {k | (runMap (fun _ => none) collidingCalls).2 k ≠ none}.ncard ∧
      ∀ _key : FixedBytes 1, ∃ d < s.capacity, (s.bucket 0 ((s.indexOf 0 + d) % s.capacity)).value = 0 :=
  ⟨by decide +kernel, hashIndex_refines_map (fun _ => 0) 0 0 collidingCalls
    (by simp [collidingCalls, Call.Proper]) (by decide +kernel)⟩

end HashIndex

end Zilkworm.State
