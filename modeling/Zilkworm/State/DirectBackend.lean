/-
# `DirectState` as a backend

The operations of `DirectState` that the block-running code uses, and what they leave
alone: nothing but `insert_header` touches the header store, and balances move only where
they are told to.
-/
import Zilkworm.State.DirectState

namespace Zilkworm.State

open Lib Rlp Zilkworm.Types Witness

instance (keccak256 : Bytes → Bytes32) : ActiveState keccak256 DirectState where
  readHeader := DirectState.readHeader
  insertHeader := DirectState.insertHeader keccak256
  getBlockHash := DirectState.getBlockHash
  viewAccount := DirectState.viewAccount
  readCode := DirectState.readCode
  readStorage := DirectState.readStorage
  readCodeHash addr s := ((s.readAccount addr).map (·.codeHash), s)
  getNonce addr s := (s.getNonce addr, s)
  getBalance addr s := (s.getBalance addr, s)
  setBalance := DirectState.setBalance
  addToBalance := DirectState.addToBalance
  touched := DirectState.touched
  clearTouched s := { s with touched := [] }
  destructDeadAmong := DirectState.destructDeadAmong
  applyStateDiff := DirectState.applyStateDiff keccak256
  noteCreatedCode _ s := s
  stateRootHash := DirectState.stateRootHash keccak256

namespace DirectState

variable {keccak256 : Bytes → Bytes32} {addr : Address} {pa : Account} {s : DirectState}

/-! ## The header store -/

@[simp]
theorem storeAccount_headers : (s.storeAccount addr pa).headers = s.headers := by
  unfold storeAccount; split <;> rfl

@[simp]
theorem observeAccount_headers : (s.observeAccount addr).2.headers = s.headers := by
  unfold observeAccount; split <;> rfl

@[simp]
theorem journalAddressChanged_headers : (s.journalAddressChanged addr).headers = s.headers := by
  unfold journalAddressChanged; split <;> rfl

@[simp]
theorem noteAbsentRead_headers {key : Bytes32} :
    (s.noteAbsentRead addr pa key).headers = s.headers := by
  unfold noteAbsentRead; split <;> simp

@[simp]
theorem reviveIfDeleted_headers : (s.reviveIfDeleted addr pa).2.headers = s.headers := by
  unfold reviveIfDeleted; split <;> rfl

@[simp]
theorem noteWipedStorage_headers : (s.noteWipedStorage pa).2.headers = s.headers := by
  unfold noteWipedStorage; split <;> rfl

@[simp]
theorem liveAccount_headers : (s.liveAccount addr).2.headers = s.headers := by simp [liveAccount]

@[simp]
theorem setField_headers {changes : Account → Bool} {set : Account → Account} :
    (s.setField addr changes set).headers = s.headers := by
  unfold setField
  dsimp only
  split <;> simp

theorem readStorage_headers {key : Bytes32} : (s.readStorage addr key).2.headers = s.headers := by
  have h : (s.observeAccount addr).2.headers = s.headers := observeAccount_headers
  unfold readStorage
  dsimp only
  split
  · exact h
  · split
    · exact h
    · split
      · exact h
      · split <;> simp

theorem readCode_headers : (s.readCode addr).2.headers = s.headers := by
  have h : (s.observeAccount addr).2.headers = s.headers := observeAccount_headers
  unfold readCode readCodeOf
  dsimp only
  split_ifs <;> try exact h
  split <;> exact h

theorem startWalk_headers {header : BlockHeader} : (s.startWalk header).headers = s.headers := by
  unfold startWalk
  split <;> rfl

theorem extendWalk_headers (missing : ℕ) (s : DirectState) :
    (extendWalk missing s).2.headers = s.headers := by
  induction missing generalizing s with
  | zero => rfl
  | succ missing ih =>
    unfold extendWalk
    split
    · rfl
    · rw [ih]

theorem getBlockHash_headers {header : BlockHeader} {n : U64} :
    (s.getBlockHash header n).2.headers = s.headers := by
  unfold getBlockHash
  split
  · rfl
  · have h (missing : ℕ) : (extendWalk missing (s.startWalk header)).2.headers = s.headers :=
      (extendWalk_headers missing _).trans startWalk_headers
    dsimp only
    split
    · exact h _
    · split <;> exact h _

theorem destructRecord_headers : (s.destructRecord addr).headers = s.headers := by
  unfold destructRecord
  split
  · rfl
  · dsimp only
    split <;> simp

theorem destructCreated_headers : (s.destructCreated addr).headers = s.headers := by
  unfold destructCreated
  split <;> rfl

@[simp]
theorem destruct_headers : (s.destruct addr).headers = s.headers := by
  rw [destruct, journalAddressChanged_headers]
  exact destructCreated_headers.trans destructRecord_headers

/-- A loop whose steps leave the headers alone leaves them alone. -/
theorem foldl_headers {α : Type} (f : DirectState → α → DirectState)
    (hf : ∀ s a, (f s a).headers = s.headers) (l : List α) (s : DirectState) :
    (l.foldl f s).headers = s.headers :=
  List.foldlRecOn (motive := fun t => t.headers = s.headers) l f rfl fun _ ht a _ => (hf _ a).trans ht

theorem setStorageSlot_headers {key value : Bytes32} :
    (s.setStorageSlot addr key value pa).2.headers = s.headers := by
  unfold setStorageSlot
  dsimp only
  split
  · rfl
  · split
    · split <;> rfl
    · rfl

@[simp]
theorem wipeStorage_headers : (s.wipeStorage addr pa).2.headers = s.headers := by
  simp [wipeStorage]

@[simp]
theorem applyCodeDiff_headers {code : Bytes} {h : Option Bytes32} :
    (s.applyCodeDiff keccak256 addr code h pa).2.headers = s.headers := by
  unfold applyCodeDiff
  split
  · rfl
  · have h : (if isCodeDelegated code then (pa, s) else s.wipeStorage addr pa).2.headers =
        s.headers := by
      split <;> simp
    dsimp only
    split <;> exact h

theorem applyModified_headers (m : ModifiedAccount) :
    (s.applyModified keccak256 m).headers = s.headers := by
  have hslots : ∀ (l : List (Bytes32 × Bytes32)) (p : Account × DirectState),
      (l.foldl (fun p kv => p.2.setStorageSlot m.addr kv.1 kv.2 p.1) p).2.headers = p.2.headers := by
    intro l
    induction l with
    | nil => exact fun p => rfl
    | cons kv l ih => exact fun p => (ih _).trans setStorageSlot_headers
  unfold applyModified
  dsimp only
  rw [storeAccount_headers, hslots]
  split <;> simp

end DirectState

instance (keccak256 : Bytes → Bytes32) : LawfulHeaders keccak256 DirectState where
  insertHeader h s n k := by
    simp only [ActiveState.readHeader, ActiveState.insertHeader, DirectState.readHeader,
      DirectState.insertHeader]
    split
    · next heq => subst heq; exact AList.lookup_insert _
    · next hne => exact AList.lookup_insert_ne (Ne.symm hne)
  kept f := by
    have hkeep {s s' : DirectState} (hh : s'.headers = s.headers) (hs : s.readHeader = f) :
        s'.readHeader = f := by
      rw [← hs]
      funext n k
      exact congrArg (AList.lookup k) hh
    exact {
      getBlockHash _ _ _ := hkeep DirectState.getBlockHash_headers
      viewAccount _ _ := hkeep DirectState.observeAccount_headers
      readCode _ _ := hkeep DirectState.readCode_headers
      readStorage _ _ _ := hkeep DirectState.readStorage_headers
      readCodeHash _ _ := id
      getNonce _ _ := id
      getBalance _ _ := id
      setBalance _ _ _ := hkeep DirectState.setField_headers
      addToBalance _ _ _ := hkeep DirectState.setField_headers
      clearTouched := id
      destructDeadAmong as s := hkeep <|
        DirectState.foldl_headers _ (fun s a => by split <;> simp) as s
      applyStateDiff d s := hkeep <|
        (DirectState.foldl_headers _ (fun s a => by simp) d.deletedAccounts _).trans <|
          DirectState.foldl_headers _ (fun s m => DirectState.applyModified_headers m) _ s
      noteCreatedCode _ _ := id }

namespace DirectState

variable {keccak256 : Bytes → Bytes32} {addr : Address} {pa : Account} {s : DirectState}

/-! ## Balances -/

theorem lookupAccount_storeAccount (s : DirectState) (addr : Address) (pa : Account) (b : Address) :
    (s.storeAccount addr pa).lookupAccount b = if addr = b then some pa else s.lookupAccount b := by
  unfold storeAccount lookupAccount
  cases ha : s.witness.find addr with
  | none =>
    dsimp only
    split_ifs with hab
    · subst hab; simp [ha]
    · cases s.witness.find b with
      | none => exact AList.lookup_insert_ne (Ne.symm hab)
      | some off => rfl
  | some off =>
    dsimp only
    split_ifs with hab
    · subst hab; simp [ha]
    · cases hb : s.witness.find b with
      | none => rfl
      | some off' =>
        have hoff : off' ≠ off := fun h => hab (s.witness.find_injective ha (h ▸ hb))
        simp [Function.update_of_ne hoff]

theorem lookupAccount_observeAccount (s : DirectState) (addr b : Address) :
    (s.observeAccount addr).2.lookupAccount b =
      if addr = b then some (s.observeAccount addr).1 else s.lookupAccount b := by
  unfold observeAccount
  cases h : s.lookupAccount addr with
  | some pa =>
    dsimp only
    split_ifs with hab
    · rw [← hab, h]
    · rfl
  | none =>
    -- a total miss: the witness has no record, so the new one is where a lookup goes
    have hfind : s.witness.find addr = none := by
      by_contra hne
      obtain ⟨off, hoff⟩ := Option.ne_none_iff_exists'.mp hne
      simp [lookupAccount, hoff] at h
    have := lookupAccount_storeAccount s addr (Account.absent addr) b
    simpa [storeAccount, hfind] using this

theorem lookupAccount_liveAccount {b : Address} (hab : addr ≠ b) :
    (s.liveAccount addr).2.lookupAccount b = s.lookupAccount b := by
  have h := lookupAccount_observeAccount s addr b
  rw [if_neg hab] at h
  rw [← h]
  unfold liveAccount reviveIfDeleted
  dsimp only
  split <;> rfl

/-- The record to be changed has the balance that `get_balance` reads. -/
theorem liveAccount_balance : (s.liveAccount addr).1.balance = s.getBalance addr := by
  unfold liveAccount reviveIfDeleted observeAccount getBalance readAccount
  cases h : s.lookupAccount addr with
  | none => rfl
  | some pa => cases hd : pa.deleted <;> simp [hd, Account.revived, Option.filter_some]

theorem liveAccount_deleted : (s.liveAccount addr).1.deleted = false := by
  unfold liveAccount reviveIfDeleted
  dsimp only
  split <;> simp_all [Account.revived]

theorem getBalance_journalAddressChanged (a b : Address) :
    (s.journalAddressChanged a).getBalance b = s.getBalance b := by
  unfold journalAddressChanged
  split <;> rfl

/-- Storing a live record changes the balance of its address only. -/
theorem getBalance_storeAccount (hlive : pa.deleted = false) (b : Address) :
    (s.storeAccount addr pa).getBalance b = if addr = b then pa.balance else s.getBalance b := by
  unfold getBalance readAccount
  rw [lookupAccount_storeAccount]
  split_ifs <;> simp [hlive, Option.filter_some]

/-- `add_to_balance` adds to one balance, modulo `2 ^ 256`, and to no other. -/
theorem getBalance_addToBalance (addend : U256) (b : Address) :
    (s.addToBalance addr addend).getBalance b = s.getBalance b + if addr = b then addend else 0 := by
  have hother (hab : addr ≠ b) : (s.liveAccount addr).2.getBalance b = s.getBalance b := by
    unfold getBalance readAccount
    rw [lookupAccount_liveAccount hab]
  have hlive : (s.liveAccount addr).1.deleted = false := liveAccount_deleted
  have htouched : ∀ t : DirectState,
      ({ t with touched := t.touched.insert addr } : DirectState).getBalance b = t.getBalance b :=
    fun _ => rfl
  unfold addToBalance setField
  dsimp only
  rw [htouched]
  split_ifs with hchange hab hab
  · rw [getBalance_journalAddressChanged, getBalance_storeAccount (by exact hlive), if_pos hab, ← hab]
    exact congrArg (· + addend) liveAccount_balance
  · rw [getBalance_journalAddressChanged, getBalance_storeAccount (by exact hlive), if_neg hab,
      hother hab]
    exact (BitVec.add_zero _).symm
  · have hzero : addend = 0 := by simpa using hchange
    rw [getBalance_storeAccount hlive, if_pos hab, ← hab, liveAccount_balance, hzero]
    exact (BitVec.add_zero _).symm
  · rw [getBalance_storeAccount hlive, if_neg hab, hother hab]
    exact (BitVec.add_zero _).symm

theorem noteWipedStorage_spec (s : DirectState) (pa : Account) :
    (s.noteWipedStorage pa).2.witness = s.witness ∧ (s.noteWipedStorage pa).2.records = s.records ∧
      (s.noteWipedStorage pa).2.createdAccounts = s.createdAccounts := by
  unfold noteWipedStorage
  split <;> exact ⟨rfl, rfl, rfl⟩

/-- `destructRecord` changes the record the witness has for the address and no other. -/
theorem destructRecord_spec (s : DirectState) (addr : Address) :
    (s.destructRecord addr).witness = s.witness ∧
      (s.destructRecord addr).createdAccounts = s.createdAccounts ∧
      ∀ off, if s.witness.find addr = some off then ((s.destructRecord addr).records off).deleted = true
        else (s.destructRecord addr).records off = s.records off := by
  unfold destructRecord
  cases h : s.witness.find addr with
  | none => exact ⟨rfl, rfl, fun off => by simp⟩
  | some off =>
    obtain ⟨hw, hr, hc⟩ : let t := (if (s.records off).deleted then (s.records off, s)
        else s.noteWipedStorage (s.records off)).2
        t.witness = s.witness ∧ t.records = s.records ∧ t.createdAccounts = s.createdAccounts := by
      dsimp only
      split
      · exact ⟨rfl, rfl, rfl⟩
      · exact noteWipedStorage_spec s _
    refine ⟨hw, hc, fun off' => ?_⟩
    dsimp only
    rw [hr]
    by_cases heq : some off = some off'
    · rw [if_pos heq, ← Option.some.inj heq, Function.update_self]
    · rw [if_neg heq]
      exact Function.update_of_ne (fun h => heq (by rw [h])) _ _

/-- `destructCreated` changes the record created for the address and no other. -/
theorem destructCreated_spec (s : DirectState) (addr : Address) :
    (s.destructCreated addr).witness = s.witness ∧ (s.destructCreated addr).records = s.records ∧
      ∀ b, (s.destructCreated addr).createdAccounts.lookup b = if addr = b then
        (s.createdAccounts.lookup b).map fun pa => { pa with deleted := true }
        else s.createdAccounts.lookup b := by
  unfold destructCreated
  cases h : s.createdAccounts.lookup addr with
  | none =>
    refine ⟨rfl, rfl, fun b => ?_⟩
    split_ifs with hab
    · rw [← hab, h]; rfl
    · rfl
  | some pa =>
    refine ⟨rfl, rfl, fun b => ?_⟩
    dsimp only
    split_ifs with hab
    · rw [← hab, h, AList.lookup_insert]; rfl
    · exact AList.lookup_insert_ne (Ne.symm hab)

/-- A destructed address reads as absent, every other one as before. -/
theorem readAccount_destruct (b : Address) :
    (s.destruct addr).readAccount b = if addr = b then none else s.readAccount b := by
  have hjournal : ∀ t : DirectState, (t.journalAddressChanged addr).readAccount b = t.readAccount b := by
    intro t; unfold journalAddressChanged; split <;> rfl
  obtain ⟨hw₁, hc₁, hr₁⟩ := destructRecord_spec s addr
  obtain ⟨hw₂, hr₂, hc₂⟩ := destructCreated_spec (s.destructRecord addr) addr
  unfold destruct
  rw [hjournal]
  unfold readAccount lookupAccount
  dsimp only
  rw [hw₂, hw₁, hr₂]
  cases hb : s.witness.find b with
  | none =>
    dsimp only
    rw [hc₂, hc₁]
    split_ifs
    · cases s.createdAccounts.lookup b <;> simp [Option.filter_some]
    · rfl
  | some off =>
    dsimp only
    specialize hr₁ off
    by_cases hab : addr = b
    · rw [hab, if_pos hb] at hr₁
      rw [if_pos hab, hab, Option.filter_some, hr₁]; rfl
    · rw [if_neg fun h => hab (s.witness.find_injective h hb)] at hr₁
      rw [if_neg hab, hr₁]

/-- A dead account has no balance (EIP-161). -/
theorem getBalance_of_isDead {a : Address} (h : s.isDead a = true) : s.getBalance a = 0 := by
  unfold isDead isDeleted isEmptyAccount readAccount at h
  unfold getBalance readAccount
  cases hl : s.lookupAccount a with
  | none => rfl
  | some pa => cases hd : pa.deleted <;> simp_all [Option.filter_some, Account.isEmpty]

/-- Sweeping the dead accounts changes no balance. -/
theorem getBalance_destructDeadAmong (addrs : List Address) (s : DirectState) (b : Address) :
    (s.destructDeadAmong addrs).getBalance b = s.getBalance b := by
  unfold destructDeadAmong
  induction addrs generalizing s with
  | nil => rfl
  | cons a addrs ih =>
    rw [List.foldl_cons, ih]
    split_ifs with hdead
    · unfold getBalance
      rw [readAccount_destruct]
      split_ifs with hab
      · exact (hab ▸ getBalance_of_isDead hdead).symm
      · rfl
    · rfl

end DirectState

/-- On `DirectState` balances obey the laws in every state. -/
instance directBalances (keccak256 : Bytes → Bytes32) : LawfulBalances keccak256 DirectState where
  WellFormed _ := True
  kept := by constructor <;> intros <;> trivial
  addToBalance _ v _ _ b := DirectState.getBalance_addToBalance v b
  destructDeadAmong as s _ b := DirectState.getBalance_destructDeadAmong as s b

end Zilkworm.State
