/-
# Account records

`core/types_zz/account.hpp` and `account.cpp`: an account as the backends hold it, with the
slots that follow it in the witness.  `DirectState` threads a record's reads of slots the
witness lacks as a list through one vector; here the record carries its list, newest
first.  The leaf encoding is cached in the record: `accRlp` is the cached bytes, and a
non-zero `accRlpSrootOff` says that they still are the record's own, up to the storage
root behind that offset.
-/
import Zilkworm.State.ActiveState
import Zilkworm.Lib.Table
import Zilkworm.Witness.Sanitize

namespace Zilkworm.State

open List Lib Rlp Zilkworm.Types Witness

/-- `Slot`. -/
structure Slot where
  key : Bytes32
  initial : Bytes32
  current : Bytes32
  deriving DecidableEq

/-- `Account`; `slots` are the `slot_count` slots behind the record. -/
structure Account where
  addr : Address
  deleted : Bool := false
  accRlp : Bytes := []
  accRlpSrootOff : ℕ := 0
  modified : Bool := false
  nonce : U64 := 0
  balance : U256 := 0
  codeHash : Bytes32 := zeroBytes32
  storageRoot : Bytes32 := zeroBytes32
  codeStoreOffset : ℕ := 0
  codeStoreLen : ℕ := 0
  slots : List Slot := []
  absentReads : List Bytes32 := []
  deriving DecidableEq

namespace Account

/-- `kAccRlpBufSize`. -/
def kAccRlpBufSize : ℕ := 112

/-- `encode_account_into` of the record, with a storage root of the caller's. -/
def encodeInto (a : Account) (storageRoot : Bytes32) : Bytes × ℕ :=
  encodeAccountInto a.nonce a.balance a.codeHash.val storageRoot.val

/-- `Account::rlp` and `rlp_into`: the cached leaf with the storage root patched in, or a new
encoding. -/
def rlp (a : Account) (storageRoot : Bytes32) : Bytes :=
  if a.accRlpSrootOff ≠ 0 ∧ a.accRlp ≠ [] ∧ a.accRlp.length ≤ kAccRlpBufSize ∧
      a.accRlpSrootOff + 1 + 32 ≤ a.accRlp.length then
    writeAt a.accRlp (a.accRlpSrootOff + 1) storageRoot.val
  else (a.encodeInto storageRoot).1

/-- `rlp_into_cache`. -/
def rlpIntoCache (a : Account) (storageRoot : Bytes32) : Account :=
  let (leaf, srootOff) := a.encodeInto storageRoot
  { a with accRlp := leaf, accRlpSrootOff := srootOff }

/-- No nonce, no balance and no code. -/
def isEmpty (a : Account) : Bool := a.nonce = 0 ∧ a.codeHash = kEmptyHash ∧ a.balance = 0

/-- The fields of the account the record stands for. -/
def info (a : Account) (hasStorage : Bool) : AccountInfo where
  nonce := a.nonce
  balance := a.balance
  codeHash := a.codeHash
  hasStorage := hasStorage

/-- The record a failed lookup leaves behind: deleted, with nothing in it. -/
def absent (addr : Address) : Account where
  addr := addr
  codeHash := kEmptyHash
  storageRoot := kEmptyRoot
  deleted := true

/-- The fields `revive_if_deleted_slow` resets. -/
def revived (a : Account) : Account :=
  { a with
    deleted := false
    codeHash := kEmptyHash
    storageRoot := kEmptyRoot
    slots := []
    codeStoreLen := 0
    nonce := 0
    balance := 0
    modified := true
    accRlpSrootOff := 0 }

end Account

/-- `find_slot`: the position of a key among slots in ascending key order. -/
def findSlot (slots : List Slot) (key : Bytes32) : Option ℕ :=
  let below i := (slots[i]?.map fun s => decide (s.key.val < key.val)).getD false
  let i := lowerBound below slots.length 0 slots.length
  match slots[i]? with
  | some s => if s.key = key then some i else none
  | none => none

/-- **Among slots in ascending key order `find_slot` finds the one with the key.** -/
theorem findSlot_spec {slots : List Slot} (hs : slots.Pairwise fun x y => x.key.val < y.key.val)
    (key : Bytes32) :
    ((findSlot slots key).bind fun i => slots[i]?) = slots.find? fun s => s.key = key := by
  unfold findSlot
  dsimp only
  have hlt := pairwise_iff_getElem.mp hs
  have hbelow : ∀ {i} (hi : i < slots.length),
      (((slots[i]?).map fun s => decide (s.key.val < key.val)).getD false) = true ↔
      slots[i].key.val < key.val := fun hi => by
    rw [getElem?_eq_getElem hi, Option.map_some, Option.getD_some, decide_eq_true_eq]
  obtain ⟨-, hle, hbefore, hafter⟩ := @lowerBound_spec
    (fun i => ((slots[i]?).map fun s => decide (s.key.val < key.val)).getD false) slots.length 0
    slots.length le_rfl
    (fun i j _ hij hj h => by
      rw [Nat.zero_add] at hj
      rw [hbelow hj] at h
      rw [hbelow (by omega)]
      rcases Nat.eq_or_lt_of_le hij with rfl | hij
      · exact h
      · exact Std.lt_trans (hlt i j (by omega) hj hij) h)
  rw [Nat.zero_add] at hle
  generalize lowerBound _ slots.length 0 slots.length = i at hle hbefore hafter ⊢
  -- before the bound the keys are below, from it on they are not
  have hlo : ∀ j (hj : j < slots.length), j < i → slots[j].key.val < key.val := fun j hj hji =>
    (hbelow hj).mp (hbefore j (Nat.zero_le j) hji)
  have hhi : ∀ j (hj : j < slots.length), i ≤ j → ¬ slots[j].key.val < key.val := fun j hj hij h => by
    have := hafter j hij (by omega)
    rw [(hbelow hj).mpr h] at this
    cases this
  have hnone : (∀ j (hj : j < slots.length), slots[j].key ≠ key) →
      slots.find? (fun s => s.key = key) = none := fun h => by
    refine find?_eq_none.mpr fun s hmem => ?_
    obtain ⟨j, hj, rfl⟩ := getElem_of_mem hmem
    simpa using h j hj
  have hirr : ∀ x : Bytes, ¬ x < x := fun x => Std.lt_irrefl
  by_cases hi : i < slots.length
  · rw [getElem?_eq_getElem hi]
    dsimp only
    split_ifs with hkey
    · rw [Option.bind_some, getElem?_eq_getElem hi, eq_comm]
      refine find?_eq_some_iff_getElem.mpr ⟨by simpa using hkey, i, hi, rfl, fun j hj => ?_⟩
      have := hlo j (by omega) hj
      simp only [Bool.not_eq_true', decide_eq_false_iff_not]
      rintro rfl
      exact hirr _ this
    · rw [Option.bind_none, hnone]
      intro j hj heq
      rcases Nat.lt_trichotomy j i with h | rfl | h
      · exact hirr _ (heq ▸ hlo j hj h)
      · exact hkey heq
      · have h1 := hlt i j hi hj h
        rw [heq] at h1
        exact hhi i hi le_rfl h1
  · rw [getElem?_eq_none (by omega), hnone]
    · rfl
    · intro j hj heq
      exact hirr _ (heq ▸ hlo j hj (by omega))

/-- The record at place `p` of a blob, with its slots. -/
def Account.read (b : Bytes) (p : ℕ) : Account where
  addr := FixedBytes.load 20 (accAddr b p)
  deleted := accDeleted b p
  -- a length over the buffer's is what `rlp` falls back for
  accRlp := slice b (p + 140) (accRlpLen b p)
  accRlpSrootOff := Witness.accRlpSrootOff b p
  modified := accModified b p
  nonce := accNonce b p
  balance := accBalance b p
  codeHash := FixedBytes.load 32 (accCodeHash b p)
  storageRoot := FixedBytes.load 32 (accStorageRoot b p)
  codeStoreOffset := accCodeStoreOffset b p
  codeStoreLen := accCodeStoreLen b p
  slots := (range (accSlotCount b p)).map fun i =>
    { key := FixedBytes.load 32 (slotKey b (slotPos p i))
      initial := FixedBytes.load 32 (slotInitial b (slotPos p i))
      current := FixedBytes.load 32 (slotCurrent b (slotPos p i)) }

end Zilkworm.State
