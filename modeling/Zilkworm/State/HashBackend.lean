/-
# `HashState` as a backend

The operations of `HashState` that the block-running code uses.  None of them writes to the account
cache, whose records are live, and so balances move as in the other backend.
-/
import Zilkworm.State.HashState

namespace Zilkworm.State

open Lib Rlp Zilkworm.Types Trie

variable {code : Bytes}

instance (keccak256 : Bytes → Bytes32) : ActiveState keccak256 HashState where
  readHeader := HashState.readHeader
  insertHeader := HashState.insertHeader keccak256
  getBlockHash := HashState.getBlockHash
  viewAccount := HashState.viewAccount keccak256
  readCode := HashState.readCode keccak256
  readStorage := HashState.readStorage keccak256
  readCodeHash addr s :=
    let (pa, s) := s.readAccount keccak256 addr
    (pa.map (·.codeHash), s)
  getNonce := HashState.getNonce keccak256
  getBalance := HashState.getBalance keccak256
  setBalance := HashState.setBalance keccak256
  addToBalance := HashState.addToBalance keccak256
  touched := HashState.touched
  clearTouched s := { s with touched := [] }
  destructDeadAmong := HashState.destructDeadAmong keccak256
  applyStateDiff := HashState.applyStateDiff keccak256
  noteCreatedCode := HashState.noteCreatedCode keccak256
  stateRootHash _ := none

namespace HashState

variable {keccak256 : Bytes → Bytes32} {addr : Address} {s : HashState}

/-! ## The account cache is not written -/

@[simp] theorem noteAccountMiss_accounts {h : Bytes32} :
    (s.noteAccountMiss h).accounts = s.accounts := by
  unfold noteAccountMiss countUnconfirmed
  split <;> rfl

@[simp] theorem readAccount_accounts : (s.readAccount keccak256 addr).2.accounts = s.accounts := by
  unfold readAccount getAccount
  split
  · rfl
  · split <;> simp

@[simp] theorem readCode_accounts : (s.readCode keccak256 addr).2.accounts = s.accounts := by
  have hread := @readAccount_accounts keccak256 addr s
  unfold readCode readCodeOf countUnconfirmed
  split <;> rename_i h <;> rw [h] at hread
  · exact hread
  · dsimp only
    split_ifs <;> exact hread

@[simp] theorem readStorage_accounts {key : Bytes32} :
    (s.readStorage keccak256 addr key).2.accounts = s.accounts := by
  unfold readStorage getStorage noteStorageMiss countUnconfirmed
  repeat' split
  all_goals rfl

@[simp] theorem getBlockHash_accounts {header : BlockHeader} {n : U64} :
    (s.getBlockHash header n).2.accounts = s.accounts := by
  have hwalk : (s.startWalk header).accounts = s.accounts := by
    unfold startWalk
    split <;> rfl
  unfold getBlockHash countUnconfirmed
  split
  · rfl
  · dsimp only
    split <;> exact hwalk

@[simp] theorem findOrCreateAccount_accounts :
    (s.findOrCreateAccount keccak256 addr).2.accounts = s.accounts := by
  unfold findOrCreateAccount
  split
  · rfl
  · split
    · rfl
    · exact noteAccountMiss_accounts

@[simp] theorem liveAccount_accounts : (s.liveAccount keccak256 addr).2.accounts = s.accounts := by
  unfold liveAccount reviveIfDeleted
  dsimp only
  split <;> exact findOrCreateAccount_accounts

theorem setField_accounts {changes : Account → Bool} {set : Account → Account} :
    (s.setField keccak256 addr changes set).accounts = s.accounts :=
  liveAccount_accounts

theorem stashCreatedCode_accounts {h : Bytes32} :
    (s.stashCreatedCode h code).accounts = s.accounts := by
  unfold stashCreatedCode
  split <;> rfl

theorem noteCreatedCode_accounts : (s.noteCreatedCode keccak256 code).accounts = s.accounts := by
  unfold noteCreatedCode
  split_ifs
  · rfl
  · exact stashCreatedCode_accounts
  · rfl

theorem applyCodeDiff_accounts {pa : Account} :
    (s.applyCodeDiff keccak256 addr code pa).2.accounts = s.accounts := by
  unfold applyCodeDiff placeCode
  split
  · rfl
  · dsimp only
    split_ifs <;> first | rfl | exact stashCreatedCode_accounts

/-- A loop whose steps leave the account cache alone leaves it alone. -/
theorem foldl_accounts {α : Type} {f : HashState → α → HashState}
    (hf : ∀ s a, (f s a).accounts = s.accounts) (l : List α) (s : HashState) :
    (l.foldl f s).accounts = s.accounts :=
  List.foldlRecOn (motive := fun t => t.accounts = s.accounts) l f rfl fun _ ht a _ => (hf _ a).trans ht

theorem applyModified_accounts {m : ModifiedAccount} :
    (s.applyModified keccak256 m).accounts = s.accounts := by
  have hslots : ∀ (l : List (Bytes32 × Bytes32)) (p : Account × HashState),
      (l.foldl (fun (p : Account × HashState) e => p.2.setStorageSlot m.addr p.1 e.1 e.2) p).2.accounts =
        p.2.accounts := by
    intro l
    induction l with
    | nil => exact fun _ => rfl
    | cons e l ih => exact fun p => ih _
  refine (hslots _ _).trans ?_
  cases m.code with
  | none => exact liveAccount_accounts
  | some code => exact applyCodeDiff_accounts.trans liveAccount_accounts

theorem destruct_accounts : (s.destruct keccak256 addr).accounts = s.accounts := by
  unfold destruct
  dsimp only
  split <;> rfl

/-! ## Balances -/

/-- The records of the account cache are live: they come from leaves of the trie. -/
def CacheLive (s : HashState) : Prop := ∀ k pa, s.accounts.lookup k = some pa → pa.deleted = false

/-- What `get_balance` answers. -/
theorem getBalance_eq (b : Address) : (s.getBalance keccak256 b).1 =
    ((s.createdAccounts.lookup b).map fun pa => if pa.deleted then 0 else pa.balance).getD
      (((s.findBuiltAccount (keccak256 b.val)).map (·.balance)).getD 0) := by
  unfold getBalance readAccount getAccount
  cases s.createdAccounts.lookup b with
  | some pa => cases hd : pa.deleted <;> simp [hd]
  | none => cases s.findBuiltAccount (keccak256 b.val) <;> rfl

/-- A balance depends on the overlay and the account cache. -/
theorem getBalance_congr {t : HashState} (hc : t.createdAccounts = s.createdAccounts)
    (ha : t.accounts = s.accounts) (b : Address) :
    (t.getBalance keccak256 b).1 = (s.getBalance keccak256 b).1 := by
  rw [getBalance_eq, getBalance_eq, findBuiltAccount, findBuiltAccount, hc, ha]

/-- Storing a record changes the balance of its address only; a deleted one has none. -/
theorem getBalance_storeAccount (pa : Account) (b : Address) :
    ((s.storeAccount addr pa).getBalance keccak256 b).1 =
      if addr = b then (if pa.deleted then 0 else pa.balance) else (s.getBalance keccak256 b).1 := by
  rw [getBalance_eq, getBalance_eq]
  unfold storeAccount findBuiltAccount
  dsimp only
  split_ifs with hab hd
  · rw [hab, AList.lookup_insert, Option.map_some, if_pos hd]; rfl
  · rw [hab, AList.lookup_insert, Option.map_some, if_neg hd]; rfl
  · rw [AList.lookup_insert_ne (Ne.symm hab)]

theorem lookup_liveAccount {b : Address} (hab : addr ≠ b) :
    (s.liveAccount keccak256 addr).2.createdAccounts.lookup b = s.createdAccounts.lookup b := by
  have hmiss : ∀ (t : HashState) (h : Bytes32),
      (t.noteAccountMiss h).createdAccounts = t.createdAccounts := by
    intro t h
    unfold noteAccountMiss countUnconfirmed
    split <;> rfl
  have hfind : (s.findOrCreateAccount keccak256 addr).2.createdAccounts.lookup b =
      s.createdAccounts.lookup b := by
    unfold findOrCreateAccount
    split
    · rfl
    · split
      · exact AList.lookup_insert_ne (Ne.symm hab)
      · rw [hmiss]
        exact AList.lookup_insert_ne (Ne.symm hab)
  rw [← hfind]
  unfold liveAccount reviveIfDeleted
  dsimp only
  split <;> rfl

theorem liveAccount_deleted : (s.liveAccount keccak256 addr).1.deleted = false := by
  unfold liveAccount reviveIfDeleted
  dsimp only
  split <;> simp_all [Account.revived]

theorem CacheLive.liveAccount_balance (h : s.CacheLive) :
    (s.liveAccount keccak256 addr).1.balance = (s.getBalance keccak256 addr).1 := by
  rw [getBalance_eq]
  unfold liveAccount reviveIfDeleted findOrCreateAccount
  cases s.createdAccounts.lookup addr with
  | some pa => cases hd : pa.deleted <;> simp [hd, Account.revived]
  | none =>
    cases hb : s.findBuiltAccount (keccak256 addr.val) with
    | some built => simp [h _ _ hb]
    | none => rfl

/-- `add_to_balance` adds to one balance, modulo `2 ^ 256`, and to no other. -/
theorem CacheLive.getBalance_addToBalance (h : s.CacheLive) (addend : U256) (b : Address) :
    ((s.addToBalance keccak256 addr addend).getBalance keccak256 b).1 =
      (s.getBalance keccak256 b).1 + if addr = b then addend else 0 := by
  have hother (hab : addr ≠ b) : ((s.liveAccount keccak256 addr).2.getBalance keccak256 b).1 =
      (s.getBalance keccak256 b).1 := by
    rw [getBalance_eq, getBalance_eq, lookup_liveAccount hab]
    unfold findBuiltAccount
    rw [liveAccount_accounts]
  have htouched : ∀ t : HashState, (HashState.getBalance keccak256 b
      { t with touched := t.touched.insert addr }).1 = (t.getBalance keccak256 b).1 :=
    fun _ => getBalance_congr (by rfl) (by rfl) b
  unfold addToBalance setField
  dsimp only
  rw [htouched, getBalance_storeAccount]
  split_ifs with hab hchange hd hd
  · exact absurd hd (by simp [liveAccount_deleted])
  · rw [← hab, ← h.liveAccount_balance]
  · exact absurd hd (by simp [liveAccount_deleted])
  · have hzero : addend = 0 := by simpa using hchange
    rw [← hab, ← h.liveAccount_balance, hzero]
    exact (BitVec.add_zero _).symm
  · rw [hother hab]
    exact (BitVec.add_zero _).symm

/-- A dead account has no balance (EIP-161). -/
theorem CacheLive.getBalance_of_isDead (h : s.CacheLive) (hdead : s.isDead keccak256 addr = true) :
    (s.getBalance keccak256 addr).1 = 0 := by
  unfold isDead isDeleted isEmptyAccount lookupAccount at hdead
  rw [getBalance_eq]
  cases hc : s.createdAccounts.lookup addr with
  | some pa => cases hd : pa.deleted <;> simp_all [Account.isEmpty]
  | none =>
    cases hb : s.findBuiltAccount (keccak256 addr.val) with
    | some built =>
      have := h _ _ hb
      simp_all [Account.isEmpty]
    | none => rfl

/-- Destructing a dead account changes no balance. -/
theorem CacheLive.getBalance_destruct (h : s.CacheLive) (hdead : s.isDead keccak256 addr = true)
    (b : Address) :
    ((s.destruct keccak256 addr).getBalance keccak256 b).1 = (s.getBalance keccak256 b).1 := by
  unfold destruct
  cases s.lookupAccount keccak256 addr with
  | none => exact getBalance_congr (by rfl) (by rfl) b
  | some pa =>
    refine (getBalance_congr (s := s.storeAccount addr { pa with addr := addr, deleted := true })
      (by rfl) (by rfl) b).trans ?_
    rw [getBalance_storeAccount, if_pos rfl]
    split_ifs with hab
    · rw [← hab, h.getBalance_of_isDead hdead]
    · rfl

/-- Sweeping the dead accounts changes no balance. -/
theorem CacheLive.getBalance_destructDeadAmong (addrs : List Address) (h : s.CacheLive)
    (b : Address) : ((s.destructDeadAmong keccak256 addrs).getBalance keccak256 b).1 =
      (s.getBalance keccak256 b).1 := by
  unfold destructDeadAmong
  induction addrs generalizing s with
  | nil => rfl
  | cons a addrs ih =>
    rw [List.foldl_cons]
    split_ifs with hdead
    · rw [ih (by unfold CacheLive; rw [destruct_accounts]; exact h), h.getBalance_destruct hdead]
    · exact ih h

theorem CacheLive.emitAccount (h : s.CacheLive) (leaf : Bytes32 × Bytes) :
    (s.emitAccount leaf).CacheLive := by
  unfold HashState.emitAccount
  split
  · exact h
  · rename_i acc hacc
    intro k pa hk
    by_cases hkey : k = leaf.1
    · rw [hkey, AList.lookup_insert] at hk
      cases hk
      unfold decodeTrieAccount at hacc
      simp only [bind_eq_ok] at hacc
      obtain ⟨_, -, _, -, _, -, _, -, _, -, _, -, hpa⟩ := hacc
      cases hpa
      rfl
    · rw [AList.lookup_insert_ne hkey] at hk
      exact h k pa hk

theorem storagePass_accounts {pr : Bytes32 × Bytes32} : (s.storagePass pr).accounts = s.accounts := by
  unfold storagePass
  split
  · rfl
  · refine foldl_accounts (fun s leaf => ?_) _ s
    unfold emitSlot
    split <;> rfl

/-- Building from a trie leaves the cache live. -/
theorem CacheLive.buildStateFromTrie (h : s.CacheLive) (prevRoot : Bytes32) :
    (s.buildStateFromTrie prevRoot).2.CacheLive := by
  have hpass : ∀ t : HashState, t.CacheLive → (t.accountPass prevRoot).1.CacheLive := by
    intro t ht
    unfold accountPass
    split_ifs
    · exact ht
    · split
      · exact ht
      · exact List.foldlRecOn _ _ ht fun _ hb leaf _ => hb.emitAccount leaf
  unfold HashState.buildStateFromTrie CacheLive
  dsimp only
  rw [foldl_accounts fun _ _ => storagePass_accounts]
  exact hpass _ h

end HashState

/-- On `HashState` balances obey the laws while no cached account is deleted. -/
instance hashBalances (keccak256 : Bytes → Bytes32) : LawfulBalances keccak256 HashState where
  WellFormed := HashState.CacheLive
  kept := by
    have hkeep {s t : HashState} (h : t.accounts = s.accounts) (hs : s.CacheLive) : t.CacheLive := by
      unfold HashState.CacheLive
      rw [h]
      exact hs
    exact
      { getBlockHash := fun _ _ _ => hkeep HashState.getBlockHash_accounts
        viewAccount := fun _ _ => hkeep HashState.findOrCreateAccount_accounts
        readCode := fun _ _ => hkeep HashState.readCode_accounts
        readStorage := fun _ _ _ => hkeep HashState.readStorage_accounts
        readCodeHash := fun _ _ => hkeep HashState.readAccount_accounts
        getNonce := fun _ _ => hkeep HashState.readAccount_accounts
        getBalance := fun _ _ => hkeep HashState.readAccount_accounts
        setBalance := fun _ _ _ => hkeep HashState.setField_accounts
        addToBalance := fun _ _ _ => hkeep HashState.setField_accounts
        clearTouched := id
        destructDeadAmong := fun as _ => hkeep
          (HashState.foldl_accounts (fun s a => by split <;> simp [HashState.destruct_accounts]) as _)
        applyStateDiff := fun d _ => hkeep ((HashState.foldl_accounts
          (fun _ _ => HashState.destruct_accounts) _ _).trans
          (HashState.foldl_accounts (fun _ _ => HashState.applyModified_accounts) _ _))
        noteCreatedCode := fun _ _ => hkeep HashState.noteCreatedCode_accounts }
  addToBalance _ v _ h b := h.getBalance_addToBalance v b
  destructDeadAmong as _ h b := h.getBalance_destructDeadAmong as b

end Zilkworm.State
