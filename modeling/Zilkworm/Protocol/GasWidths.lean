/-
# The gas costs in machine words

`core/protocol/intrinsic_gas.cpp` adds its costs in 128, 64 and signed 64 bits.
`Zilkworm.Protocol.Validation` has them as natural numbers; here they are with the widths of the
source, and nothing wraps for a transaction that fits in memory: with fewer than `2^48` bytes of
data, access-list entries, storage keys and authorizations, all three sums are the ones of the
natural numbers (`Widths.intrinsicGas_toNat`, `Widths.floorCost_toNat`, `Widths.amsterdam_toNat`).
-/
import Mathlib.Algebra.Order.BigOperators.Group.List
import Mathlib.Data.List.Basic
import Zilkworm.Protocol.Validation

namespace Zilkworm.Protocol

open List Lib Rlp Zilkworm.Types State Chain

/-- A transaction whose vectors have fewer than `2^48` elements, as those of a 64-bit machine. -/
structure FitsMemory (t : Transaction) : Prop where
  data : t.data.length < 2 ^ 48
  accessList : t.accessList.length < 2 ^ 48
  storageKeys : numStorageKeys t < 2 ^ 48
  authorizations : t.authorizations.length < 2 ^ 48

namespace Widths

/-- `size()` of a vector. -/
def size {α : Type} (l : List α) : U64 := BitVec.ofNat 64 l.length

/-- `num_words` on `uint64_t`. -/
def numWords (n : U64) : U64 := n / 32 + if n % 32 ≠ 0 then 1 else 0

/-- `intrinsic_gas`; the products of the authorizations and of the code words have 64 bits. -/
def intrinsicGas (t : Transaction) (rev : Revision) (nonZeroBytes : U64) : BitVec 128 :=
  let contractCreation := t.to_ = none
  let gas : BitVec 128 := 21000
  let gas := if contractCreation ∧ .homestead ≤ rev then gas + 32000 else gas
  let gas := gas + (size t.accessList).setWidth 128 * 2400
  let keys : BitVec 128 := t.accessList.foldl (fun n e => n + (size e.storageKeys).setWidth 128) 0
  let gas := gas + keys * 1900
  let gas := gas + (size t.authorizations * 25000).setWidth 128
  let dataLen := size t.data
  if dataLen = 0 then gas
  else
    let nonZeroGas : BitVec 128 := if .istanbul ≤ rev then 16 else 68
    let gas := gas + nonZeroBytes.setWidth 128 * nonZeroGas
    let gas := gas + (dataLen - nonZeroBytes).setWidth 128 * 4
    if contractCreation ∧ .shanghai ≤ rev then gas + (numWords dataLen * 2).setWidth 128 else gas

/-- `floor_cost`. -/
def floorCost (t : Transaction) (nonZeroBytes : U64) : U64 :=
  let zero := size t.data - nonZeroBytes
  21000 + (zero + nonZeroBytes * 4) * 10

/-- `TxGasCost`, two `int64_t`. -/
structure TxGasCost where
  regular : U64
  floor : U64

/-- `amsterdam_tx_gas_cost`. -/
def amsterdamTxGasCost (t : Transaction) (sender : Option Address) (nonZeroBytes : U64) : TxGasCost :=
  let isSelfTransfer := t.to_ ≠ none ∧ t.to_ = sender
  let zero := size t.data - nonZeroBytes
  let numTokens := 4 * nonZeroBytes + zero
  let dataCost := numTokens * 4
  let recipientRegular : U64 :=
    if t.to_ = none then 12000
    else if isSelfTransfer then 0
    else 3000 + if t.value ≠ 0 then 6000 else 0
  let initCodeGas := if t.to_ = none then 2 * numWords (size t.data) else 0
  let numAddresses := size t.accessList
  let keys : U64 := t.accessList.foldl (fun n e => n + size e.storageKeys) 0
  let accessListRegular := numAddresses * (3000 - 100) + keys * (2100 - 100)
  let accessListTokens := numAddresses * 80 + keys * 128
  let accessListCost := accessListRegular + accessListTokens * 16
  let authRegular := size t.authorizations * (101 * 16 + 3000 + 3000 + 2 * 100)
  let baseRegular := 12000 + recipientRegular
  let floorTokens := size t.data * 4 + accessListTokens
  { regular := baseRegular + initCodeGas + dataCost + accessListCost + authRegular
    floor := floorTokens * 16 + baseRegular }

theorem setWidth_ofNat {x : ℕ} (h : x < 2 ^ 64) :
    (BitVec.ofNat 64 x).setWidth 128 = BitVec.ofNat 128 x :=
  BitVec.setWidth_ofNat_of_le_of_lt (by decide) h

theorem numWords_ofNat {n : ℕ} (h : n < 2 ^ 64) :
    numWords (BitVec.ofNat 64 n) = BitVec.ofNat 64 (Protocol.numWords n) := by
  have hmod : BitVec.ofNat 64 n % 32 = BitVec.ofNat 64 (n % 32) := by
    rw [← BitVec.toNat_inj, BitVec.toNat_umod, BitVec.toNat_ofNat, BitVec.toNat_ofNat,
      Nat.mod_eq_of_lt h]
    exact (Nat.mod_eq_of_lt (show n % 32 < 2 ^ 64 by omega)).symm
  have hdiv : BitVec.ofNat 64 n / 32 = BitVec.ofNat 64 (n / 32) := by
    rw [← BitVec.toNat_inj, BitVec.toNat_udiv, BitVec.toNat_ofNat, BitVec.toNat_ofNat,
      Nat.mod_eq_of_lt h]
    exact (Nat.mod_eq_of_lt (show n / 32 < 2 ^ 64 by omega)).symm
  have hzero : BitVec.ofNat 64 (n % 32) ≠ 0 ↔ n % 32 ≠ 0 := by
    rw [not_iff_not, ← BitVec.toNat_inj, BitVec.toNat_ofNat, Nat.mod_eq_of_lt (by omega)]
    rfl
  unfold numWords Protocol.numWords
  rw [hmod, hdiv, BitVec.ofNat_add]
  by_cases h0 : n % 32 ≠ 0
  · rw [if_pos (hzero.mpr h0), if_pos h0]
    rfl
  · rw [if_neg fun h => h0 (hzero.mp h), if_neg h0]
    rfl

/-- A sum of numbers in a word is the word of their sum. -/
theorem foldl_ofNat {α : Type} {w : ℕ} (f : α → ℕ) (l : List α) (acc : ℕ) :
    l.foldl (fun n e => n + BitVec.ofNat w (f e)) (BitVec.ofNat w acc) =
      BitVec.ofNat w (acc + (l.map f).sum) := by
  induction l generalizing acc with
  | nil => rfl
  | cons e l ih =>
    rw [foldl_cons, ← BitVec.ofNat_add, ih, map_cons, sum_cons, Nat.add_assoc]

theorem keys64_eq (t : Transaction) :
    t.accessList.foldl (fun n e => n + size e.storageKeys) (0 : U64) =
      BitVec.ofNat 64 (numStorageKeys t) := by
  have h := foldl_ofNat (w := 64) (fun e : AccessListEntry => e.storageKeys.length) t.accessList 0
  rw [Nat.zero_add] at h
  exact h

/-- No entry has more keys than the list. -/
theorem storageKeys_le {t : Transaction} {e : AccessListEntry} (he : e ∈ t.accessList) :
    e.storageKeys.length ≤ numStorageKeys t :=
  single_le_sum (fun _ _ => Nat.zero_le _) _ (mem_map.mpr ⟨e, he, rfl⟩)

theorem numWords_le (n : ℕ) : Protocol.numWords n ≤ n + 1 := by
  unfold Protocol.numWords
  split <;> omega

section

variable {t : Transaction} (hfits : FitsMemory t) {n : ℕ} (hn : n ≤ t.data.length)
include hfits

theorem keys128_eq :
    t.accessList.foldl (fun n e => n + (size e.storageKeys).setWidth 128) (0 : BitVec 128) =
      BitVec.ofNat 128 (numStorageKeys t) := by
  have h := foldl_ofNat (w := 128) (fun e : AccessListEntry => e.storageKeys.length) t.accessList 0
  rw [Nat.zero_add] at h
  refine Eq.trans (foldl_ext _ _ _ fun n e he => ?_) h
  have hkeys := storageKeys_le he
  have hlt := hfits.storageKeys
  rw [size, setWidth_ofNat (by omega)]

theorem size_data_eq_zero : size t.data = 0 ↔ t.data = [] := by
  have hlt := hfits.data
  rw [size, ← BitVec.toNat_inj, BitVec.toNat_ofNat, Nat.mod_eq_of_lt (by omega),
    ← length_eq_zero_iff]
  rfl

include hn

theorem zeroBytes_eq : size t.data - BitVec.ofNat 64 n = BitVec.ofNat 64 (t.data.length - n) := by
  have hlt := hfits.data
  exact BitVec.ofNat_sub_ofNat_of_le _ _ (by omega) hn

/-- **The intrinsic gas does not wrap.** -/
theorem intrinsicGas_toNat (rev : Revision) :
    (intrinsicGas t rev (BitVec.ofNat 64 n)).toNat = Protocol.intrinsicGas t rev n := by
  have hkeys := keys128_eq hfits
  have hempty := size_data_eq_zero hfits
  have hzero := zeroBytes_eq hfits hn
  obtain ⟨hdata, hlist, hstorage, hauth⟩ := hfits
  have hwords := numWords_le t.data.length
  have heq : intrinsicGas t rev (BitVec.ofNat 64 n) =
      BitVec.ofNat 128 (Protocol.intrinsicGas t rev n) := by
    have hauth64 : size t.authorizations * 25000 = BitVec.ofNat 64 (t.authorizations.length * 25000) :=
      (BitVec.ofNat_mul _ _).symm
    have hwords64 : numWords (size t.data) * 2 =
        BitVec.ofNat 64 (Protocol.numWords t.data.length * 2) := by
      rw [size, numWords_ofNat (by omega), BitVec.ofNat_mul]
      rfl
    unfold intrinsicGas Protocol.intrinsicGas
    dsimp only
    have hlist128 : (size t.accessList).setWidth 128 = BitVec.ofNat 128 t.accessList.length :=
      setWidth_ofNat (by omega)
    rw [hkeys, hauth64, hwords64, hzero, hlist128, setWidth_ofNat (by omega), setWidth_ofNat (by omega),
      setWidth_ofNat (by omega), setWidth_ofNat (by omega)]
    simp only [hempty]
    split_ifs <;> simp only [BitVec.ofNat_add, BitVec.ofNat_mul, BitVec.ofNat_eq_ofNat, BitVec.add_zero]
  rw [heq, BitVec.toNat_ofNat]
  refine Nat.mod_eq_of_lt ?_
  unfold Protocol.intrinsicGas
  dsimp only
  split_ifs <;> omega

/-- **The floor of Prague does not wrap.** -/
theorem floorCost_toNat : (floorCost t (BitVec.ofNat 64 n)).toNat = Protocol.floorCost t n := by
  have hzero := zeroBytes_eq hfits hn
  have hdata := hfits.data
  have heq : floorCost t (BitVec.ofNat 64 n) = BitVec.ofNat 64 (Protocol.floorCost t n) := by
    unfold floorCost Protocol.floorCost
    dsimp only
    rw [hzero]
    simp only [BitVec.ofNat_add, BitVec.ofNat_mul, BitVec.ofNat_eq_ofNat]
  rw [heq, BitVec.toNat_ofNat]
  refine Nat.mod_eq_of_lt ?_
  unfold Protocol.floorCost
  omega

/-- **The costs of Amsterdam do not wrap**, and are positive as signed words. -/
theorem amsterdam_toNat (sender : Option Address) :
    (amsterdamTxGasCost t sender (BitVec.ofNat 64 n)).regular.toInt =
      (Protocol.amsterdamTxGasCost t sender n).regular ∧
    (amsterdamTxGasCost t sender (BitVec.ofNat 64 n)).floor.toInt =
      (Protocol.amsterdamTxGasCost t sender n).floor := by
  have hkeys := keys64_eq t
  have hzero := zeroBytes_eq hfits hn
  obtain ⟨hdata, hlist, hstorage, hauth⟩ := hfits
  have hwords := numWords_le t.data.length
  have hwords64 : numWords (size t.data) = BitVec.ofNat 64 (Protocol.numWords t.data.length) := by
    rw [size, numWords_ofNat (by omega)]
  have hregular : (amsterdamTxGasCost t sender (BitVec.ofNat 64 n)).regular =
      BitVec.ofNat 64 (Protocol.amsterdamTxGasCost t sender n).regular := by
    unfold amsterdamTxGasCost Protocol.amsterdamTxGasCost size at *
    dsimp only
    rw [hkeys, hzero, hwords64]
    split_ifs <;> simp only [BitVec.ofNat_add, BitVec.ofNat_mul, BitVec.ofNat_eq_ofNat,
      BitVec.add_zero] <;> rfl
  have hfloor : (amsterdamTxGasCost t sender (BitVec.ofNat 64 n)).floor =
      BitVec.ofNat 64 (Protocol.amsterdamTxGasCost t sender n).floor := by
    unfold amsterdamTxGasCost Protocol.amsterdamTxGasCost size at *
    dsimp only
    rw [hkeys]
    split_ifs <;> simp only [BitVec.ofNat_add, BitVec.ofNat_mul, BitVec.ofNat_eq_ofNat, BitVec.add_zero]
  have hlt : (Protocol.amsterdamTxGasCost t sender n).regular < 2 ^ 63 ∧
      (Protocol.amsterdamTxGasCost t sender n).floor < 2 ^ 63 := by
    unfold Protocol.amsterdamTxGasCost
    dsimp only
    split_ifs <;> omega
  rw [hregular, hfloor, BitVec.toInt_eq_toNat_cond, BitVec.toInt_eq_toNat_cond, BitVec.toNat_ofNat,
    BitVec.toNat_ofNat, Nat.mod_eq_of_lt (by omega), Nat.mod_eq_of_lt (by omega), if_pos (by omega),
    if_pos (by omega)]
  exact ⟨rfl, rfl⟩

end

end Widths

end Zilkworm.Protocol
