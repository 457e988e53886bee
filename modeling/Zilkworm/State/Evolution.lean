/-
# What an operation can do to a record

Every read and mutation of a `DirectState` reaches an account record by a lookup, changes it in a
few ways and writes it back.  `Account.Change` lists these ways, and `DirectState.Evolves` says
that a state came from another by such changes of its records, with new records starting as the one
a failed lookup leaves and the code tables growing by what the diffs bring in.  So a property of
records that each change keeps holds after every run (`Evolves.keeps`).
-/
import Zilkworm.State.Ops

namespace Zilkworm.State

open Lib Rlp Zilkworm.Types Witness Relation

variable {keccak256 : Bytes → Bytes32}

/-- What a diff makes of a record's code, for the codes `diffs` under their hashes: none, the
witness's own of that hash, if the store is not sealed, or one created in the block. -/
inductive CodePlace (w : WitnessView) (diffs : Set (Bytes32 × Bytes)) : Bytes32 → ℕ → ℕ → Prop
  | empty (offset : ℕ) : CodePlace w diffs kEmptyHash 0 offset
  | stored {c : Bytes32 × Bytes} (h : c ∈ diffs) {offset : ℕ} {code : Bytes}
    (hs : w.codeStoreSealed = false)
    (hf : w.findCode c.1 = some (offset, code)) : CodePlace w diffs c.1 (c.2.length % 2 ^ 32) offset
  | created {c : Bytes32 × Bytes} (h : c ∈ diffs) :
    CodePlace w diffs c.1 (c.2.length % 2 ^ 32) kCreatedCodeOffset

/-- **The changes of a record.** -/
inductive Account.Change (w : WitnessView) (diffs : Set (Bytes32 × Bytes)) : Account → Account → Prop
  | noteRead (pa : Account) (key : Bytes32) :
    Change w diffs pa { pa with absentReads := key :: pa.absentReads }
  | clearReads (pa : Account) : Change w diffs pa { pa with absentReads := [] }
  | revive (pa : Account) (h : pa.deleted = true) : Change w diffs pa pa.revived
  | destruct (pa : Account) : Change w diffs pa { pa with deleted := true }
  | setFields (pa : Account) (nonce : U64) (balance : U256) :
    Change w diffs pa
      { pa with nonce := nonce, balance := balance, modified := true, accRlpSrootOff := 0 }
  | markModified (pa : Account) : Change w diffs pa { pa with modified := true }
  | setSlot (pa : Account) (i : ℕ) (value : Bytes32) :
    Change w diffs pa { pa with slots := pa.slots.modify i fun slot => { slot with current := value } }
  | wipeStorage (pa : Account) : Change w diffs pa { pa with slots := [], storageRoot := kEmptyRoot }
  | setCode (pa : Account) {hash : Bytes32} {len offset : ℕ} (h : CodePlace w diffs hash len offset) :
    Change w diffs pa { pa with
      codeHash := hash, codeStoreLen := len, codeStoreOffset := offset, modified :=
        true, accRlpSrootOff := 0 }
  | recache (pa : Account) (root : Bytes32) : Change w diffs pa (pa.rlpIntoCache root)

/-- Any number of changes. -/
abbrev Account.Changes (w : WitnessView) (diffs : Set (Bytes32 × Bytes)) : Account → Account → Prop :=
  ReflTransGen (Account.Change w diffs)

namespace DirectState

/-- **A state came from another by changes of its records.** -/
structure Evolves (diffs : Set (Bytes32 × Bytes)) (s t : DirectState) : Prop where
  witness : t.witness = s.witness
  records : ∀ off, Account.Changes s.witness diffs (s.records off) (t.records off)
  created : ∀ addr pa, t.createdAccounts.lookup addr = some pa →
    ∃ pa₀, (s.createdAccounts.lookup addr = some pa₀ ∨ pa₀ = Account.absent addr) ∧
      Account.Changes s.witness diffs pa₀ pa
  code : ReflTransGen (fun c c' => ∃ x ∈ diffs, c' = c.add x.1 x.2) s.createdCode t.createdCode

/-- The record in hand came from the one a lookup finds. -/
def Holds (diffs : Set (Bytes32 × Bytes)) (s : DirectState) (addr : Address) (pa : Account) : Prop :=
  ∃ pa₀, s.lookupAccount addr = some pa₀ ∧ Account.Changes s.witness diffs pa₀ pa

variable {diffs : Set (Bytes32 × Bytes)} {s t u : DirectState} {addr : Address} {pa pa' : Account}

namespace Evolves

/-- The records are the same. -/
theorem of_eq (hw : t.witness = s.witness) (hr : t.records = s.records)
    (hc : t.createdAccounts = s.createdAccounts) (hk : t.createdCode = s.createdCode) :
    Evolves diffs s t where
  witness := hw
  records off := by rw [hr]
  created addr pa h := ⟨pa, .inl (by rw [← hc]; exact h), .refl⟩
  code := by rw [hk]

/-- A state evolves to itself. -/
theorem refl (s : DirectState) : Evolves diffs s s := of_eq rfl rfl rfl rfl

/-- Evolution composes, so a run evolves if its steps do. -/
theorem trans (h : Evolves diffs s t) (h' : Evolves diffs t u) : Evolves diffs s u where
  witness := h'.witness.trans h.witness
  records off := (h.records off).trans (h.witness ▸ h'.records off)
  code := h.code.trans h'.code
  created addr pa hpa := by
    obtain ⟨pa₁, h₁, hch⟩ := h'.created addr pa hpa
    rw [h.witness] at hch
    rcases h₁ with h₁ | rfl
    · obtain ⟨pa₀, h₀, hch₀⟩ := h.created addr pa₁ h₁
      exact ⟨pa₀, h₀, hch₀.trans hch⟩
    · exact ⟨Account.absent addr, .inr rfl, hch⟩

/-- **A record in hand is written back.** -/
theorem storeAccount (h : Holds diffs s addr pa) : Evolves diffs s (s.storeAccount addr pa) := by
  obtain ⟨pa₀, hlook, hch⟩ := h
  unfold lookupAccount at hlook
  unfold DirectState.storeAccount
  cases hfind : s.witness.find addr with
  | some off =>
    obtain rfl : s.records off = pa₀ := by simpa [hfind] using hlook
    refine ⟨rfl, fun off' => ?_, fun a p hp => ⟨p, .inl hp, .refl⟩, .refl⟩
    dsimp only
    by_cases heq : off' = off
    · rw [heq, Function.update_self]
      exact hch
    · rw [Function.update_of_ne heq]
  | none =>
    rw [hfind] at hlook
    refine ⟨rfl, fun off => .refl, fun a p hp => ?_, .refl⟩
    by_cases heq : a = addr
    · subst heq
      rw [AList.lookup_insert] at hp
      cases hp
      exact ⟨pa₀, .inl hlook, hch⟩
    · rw [AList.lookup_insert_ne heq] at hp
      exact ⟨p, .inl hp, .refl⟩

/-- A property of records that each change keeps is kept. -/
theorem keeps {R : Account → Prop} (hR : ∀ pa pa', R pa → Account.Change s.witness diffs pa pa' → R pa')
    (habsent : ∀ addr, R (Account.absent addr)) (h : Evolves diffs s t) :
    (∀ off, R (s.records off) → R (t.records off)) ∧
      ∀ addr, (∀ pa, s.createdAccounts.lookup addr = some pa → R pa) →
        ∀ pa, t.createdAccounts.lookup addr = some pa → R pa := by
  have hchain {pa pa' : Account} (hpa : R pa)
      (hch : Account.Changes s.witness diffs pa pa') : R pa' := by
    induction hch with
    | refl => exact hpa
    | tail _ hstep ih => exact hR _ _ ih hstep
  refine ⟨fun off hoff => hchain hoff (h.records off), fun addr hall pa hpa => ?_⟩
  obtain ⟨pa₀, h₀ | rfl, hch⟩ := h.created addr pa hpa
  · exact hchain (hall pa₀ h₀) hch
  · exact hchain (habsent addr) hch

end Evolves

/-! ## Every operation -/

/-- A record in hand may change as records change. -/
theorem Holds.change (h : Holds diffs s addr pa) (hch : Account.Changes s.witness diffs pa pa') :
    Holds diffs s addr pa' := by
  obtain ⟨pa₀, hlook, h₀⟩ := h
  exact ⟨pa₀, hlook, h₀.trans hch⟩

/-- Holding a record is a matter of the witness, the records and the created accounts. -/
theorem Holds.of_eq (h : Holds diffs s addr pa) (hw : t.witness = s.witness) (hr : t.records = s.records)
    (hc : t.createdAccounts = s.createdAccounts) : Holds diffs t addr pa := by
  unfold Holds lookupAccount at h ⊢
  rwa [hw, hr, hc]

/-- `observe_account_`: the record it hands out is one the state holds. -/
theorem evolves_observeAccount (s : DirectState) (addr : Address) :
    Evolves diffs s (s.observeAccount addr).2 ∧
      Holds diffs (s.observeAccount addr).2 addr (s.observeAccount addr).1 := by
  have hlook := lookupAccount_observeAccount s addr addr
  rw [if_pos rfl] at hlook
  refine ⟨?_, _, hlook, .refl⟩
  unfold observeAccount
  split
  · exact Evolves.refl s
  · refine ⟨rfl, fun off => .refl, fun a p hp => ?_, .refl⟩
    dsimp only at hp
    by_cases heq : a = addr
    · subst heq
      rw [AList.lookup_insert] at hp
      cases hp
      exact ⟨_, .inr rfl, .refl⟩
    · rw [AList.lookup_insert_ne heq] at hp
      exact ⟨p, .inl hp, .refl⟩

theorem evolves_journalAddressChanged (s : DirectState) (addr : Address) :
    Evolves diffs s (s.journalAddressChanged addr) := by
  unfold journalAddressChanged
  split
  · exact Evolves.of_eq rfl rfl rfl rfl
  · exact Evolves.refl s

/-- `find_or_create_account`, then `revive_if_deleted`. -/
theorem evolves_liveAccount (s : DirectState) (addr : Address) :
    Evolves diffs s (s.liveAccount addr).2 ∧
      Holds diffs (s.liveAccount addr).2 addr (s.liveAccount addr).1 := by
  obtain ⟨hev, hheld⟩ := evolves_observeAccount s addr
  unfold liveAccount reviveIfDeleted
  dsimp only
  split
  · next hdel =>
    exact ⟨hev.trans (Evolves.of_eq rfl rfl rfl rfl),
      (hheld.change (.single (.revive _ hdel))).of_eq rfl rfl rfl⟩
  · exact ⟨hev, hheld⟩

/-- A field mutator that sets the nonce or the balance. -/
theorem evolves_setField (s : DirectState) (addr : Address) (changes : Account → Bool)
    {set : Account → Account} {nonce : Account → U64} {balance : Account → U256}
    (hset : ∀ pa, set pa = { pa with nonce := nonce pa, balance := balance pa }) :
    Evolves diffs s (s.setField addr changes set) := by
  obtain ⟨hev, hheld⟩ := evolves_liveAccount s addr
  unfold setField
  dsimp only
  split
  · refine (hev.trans (Evolves.storeAccount (hheld.change ?_))).trans
      ((evolves_journalAddressChanged _ addr).trans (Evolves.of_eq rfl rfl rfl rfl))
    rw [hset]
    exact .single (.setFields _ _ _)
  · exact (hev.trans (Evolves.storeAccount hheld)).trans (Evolves.of_eq rfl rfl rfl rfl)

theorem evolves_readStorage (s : DirectState) (addr : Address) (key : Bytes32) :
    Evolves diffs s (s.readStorage addr key).2 := by
  obtain ⟨hev, hheld⟩ := evolves_observeAccount s addr
  unfold readStorage
  dsimp only
  split
  · exact hev
  split
  · exact hev
  split
  · exact hev
  split
  · exact hev
  unfold noteAbsentRead
  split
  · exact hev
  · exact hev.trans (Evolves.storeAccount (hheld.change (.single (.noteRead _ key))))

theorem evolves_readCode (s : DirectState) (addr : Address) : Evolves diffs s (s.readCode addr).2 := by
  obtain ⟨hev, -⟩ := evolves_observeAccount s addr
  unfold readCode readCodeOf
  dsimp only
  split_ifs <;> try exact hev
  split
  · exact hev
  · exact hev.trans (Evolves.of_eq rfl rfl rfl rfl)

/-- `note_wiped_storage_` takes the record's list of reads. -/
theorem noteWipedStorage_changes (s : DirectState) (pa : Account) :
    Account.Changes s.witness diffs pa (s.noteWipedStorage pa).1 ∧
      (s.noteWipedStorage pa).2.createdCode = s.createdCode := by
  unfold noteWipedStorage
  split
  · exact ⟨.refl, rfl⟩
  · exact ⟨.single (.clearReads pa), rfl⟩

theorem evolves_destructRecord (s : DirectState) (addr : Address) :
    Evolves diffs s (s.destructRecord addr) := by
  unfold destructRecord
  cases hfind : s.witness.find addr with
  | none => exact Evolves.refl s
  | some off =>
    obtain ⟨r, hr⟩ : ∃ r, (if (s.records off).deleted then (s.records off, s)
        else s.noteWipedStorage (s.records off)) = r := ⟨_, rfl⟩
    have hkeep : Account.Changes s.witness diffs (s.records off) r.1 ∧ r.2.createdCode = s.createdCode ∧
        r.2.witness = s.witness ∧ r.2.records = s.records ∧ r.2.createdAccounts = s.createdAccounts := by
      subst hr
      split
      · exact ⟨.refl, rfl, rfl, rfl, rfl⟩
      · obtain ⟨hch, hk⟩ := noteWipedStorage_changes s (s.records off)
        exact ⟨hch, hk, noteWipedStorage_spec s _⟩
    dsimp only
    rw [hr]
    obtain ⟨hch, hk, hw, hrec, hc⟩ := hkeep
    refine ⟨hw, fun off' => ?_,
      fun a p hp => ⟨p, .inl (by rw [← hc]; exact hp), .refl⟩, by dsimp only; rw [hk]⟩
    dsimp only
    rw [hrec]
    by_cases h : off' = off
    · rw [h, Function.update_self]
      exact hch.tail (.destruct _)
    · rw [Function.update_of_ne h]

theorem evolves_destructCreated (s : DirectState) (addr : Address) :
    Evolves diffs s (s.destructCreated addr) := by
  obtain ⟨hw, hr, hc⟩ := destructCreated_spec s addr
  refine ⟨hw, fun off => by rw [hr], fun a p hp => ?_, by unfold destructCreated; split <;> exact .refl⟩
  rw [hc] at hp
  split_ifs at hp
  · obtain ⟨q, hq, rfl⟩ := Option.map_eq_some_iff.mp hp
    exact ⟨q, .inl hq, .single (.destruct q)⟩
  · exact ⟨p, .inl hp, .refl⟩

theorem evolves_destruct (s : DirectState) (addr : Address) : Evolves diffs s (s.destruct addr) := by
  refine Evolves.trans ?_ (evolves_journalAddressChanged _ addr)
  exact ((evolves_destructRecord s addr).trans (evolves_destructCreated _ addr)).trans
    (Evolves.of_eq rfl rfl rfl rfl)

/-- What every step of a fold does, the fold does. -/
theorem evolves_foldl {α : Type} {f : DirectState → α → DirectState} {l : List α}
    (hf : ∀ s, ∀ a ∈ l, Evolves diffs s (f s a)) (s : DirectState) : Evolves diffs s (l.foldl f s) :=
  List.foldlRecOn l f (Evolves.refl s) fun t ht a ha => ht.trans (hf t a ha)

theorem evolves_destructDeadAmong (s : DirectState) (addrs : List Address) :
    Evolves diffs s (s.destructDeadAmong addrs) := by
  refine evolves_foldl (fun s a _ => ?_) s
  split
  · exact evolves_destruct s a
  · exact Evolves.refl s

theorem holds_wipeStorage (h : Holds diffs s addr pa) :
    Evolves diffs s (s.wipeStorage addr pa).2 ∧
      Holds diffs (s.wipeStorage addr pa).2 addr (s.wipeStorage addr pa).1 := by
  obtain ⟨hw, hr, hc⟩ := noteWipedStorage_spec s pa
  obtain ⟨hch, hk⟩ := @noteWipedStorage_changes diffs s pa
  exact ⟨Evolves.of_eq hw hr hc hk, (h.change (hch.tail (.wipeStorage _))).of_eq hw hr hc⟩

/-- A code diff stores the code under its hash, and both come from the diff. -/
theorem holds_applyCodeDiff {code : Bytes} {codeHash : Option Bytes32} (h : Holds diffs s addr pa)
    (hcode : (codeHash.getD (keccak256 code), code) ∈ diffs) :
    Evolves diffs s (s.applyCodeDiff keccak256 addr code codeHash pa).2 ∧
      Holds diffs (s.applyCodeDiff keccak256 addr code codeHash pa).2 addr
        (s.applyCodeDiff keccak256 addr code codeHash pa).1 := by
  unfold applyCodeDiff
  split
  · exact ⟨Evolves.refl s, h.change (.single (.setCode pa (.empty _)))⟩
  obtain ⟨r, hr⟩ : ∃ r, (if isCodeDelegated code then (pa, s) else s.wipeStorage addr pa) = r := ⟨_, rfl⟩
  have hwiped : Evolves diffs s r.2 ∧ Holds diffs r.2 addr r.1 := by
    subst hr
    split
    · exact ⟨Evolves.refl s, h⟩
    · exact holds_wipeStorage h
  obtain ⟨hev, hheld⟩ := hwiped
  dsimp only
  rw [hr]
  split
  · next hfound =>
    split_ifs at hfound with hsealed
    exact ⟨hev, hheld.change (.single (.setCode r.1 (.stored hcode (by simpa using hsealed) hfound)))⟩
  · exact ⟨hev.trans ⟨rfl, fun _ => .refl, fun _ p hp => ⟨p, .inl hp, .refl⟩, .single ⟨_, hcode, rfl⟩⟩,
      (hheld.change (.single (.setCode r.1 (.created hcode)))).of_eq rfl rfl rfl⟩

theorem holds_setStorageSlot {key value : Bytes32} (h : Holds diffs s addr pa) :
    Evolves diffs s (s.setStorageSlot addr key value pa).2 ∧
      Holds diffs (s.setStorageSlot addr key value pa).2
        addr (s.setStorageSlot addr key value pa).1 := by
  have hmarked := h.change (.single (.markModified pa))
  unfold setStorageSlot
  dsimp only
  split
  · exact ⟨Evolves.refl s, hmarked.change (.single (.setSlot _ _ value))⟩
  · split
    · split
      · exact ⟨Evolves.refl s, hmarked⟩
      · exact ⟨Evolves.of_eq rfl rfl rfl rfl, hmarked.of_eq rfl rfl rfl⟩
    · exact ⟨Evolves.of_eq rfl rfl rfl rfl, hmarked.of_eq rfl rfl rfl⟩

/-- The loop over a diff's storage, by induction on the slots. -/
theorem holds_setStorageSlots (slots : List (Bytes32 × Bytes32)) (h : Holds diffs s addr pa) :
    let out :=
  slots.foldl (fun (p : Account × DirectState) kv => p.2.setStorageSlot addr kv.1 kv.2 p.1) (pa, s)
    Evolves diffs s out.2 ∧ Holds diffs out.2 addr out.1 := by
  induction slots generalizing s pa with
  | nil => exact ⟨Evolves.refl s, h⟩
  | cons kv slots ih =>
    obtain ⟨hev, hheld⟩ := @holds_setStorageSlot diffs s addr pa kv.1 kv.2 h
    obtain ⟨hev', hheld'⟩ := ih hheld
    exact ⟨hev.trans hev', hheld'⟩

/-- One modified account of a diff: its fields, its code and its storage. -/
theorem evolves_applyModified (s : DirectState) {m : ModifiedAccount}
    (hcode : ∀ code ∈ m.code, (m.codeHash.getD (keccak256 code), code) ∈ diffs) :
    Evolves diffs s (s.applyModified keccak256 m) := by
  obtain ⟨hev, hheld⟩ := @evolves_liveAccount diffs s m.addr
  have hj := @evolves_journalAddressChanged diffs (s.liveAccount m.addr).2 m.addr
  have hheldj : Holds diffs ((s.liveAccount m.addr).2.journalAddressChanged m.addr) m.addr
      (s.liveAccount m.addr).1 := by
    unfold journalAddressChanged
    split
    · exact hheld.of_eq rfl rfl rfl
    · exact hheld
  -- what follows the code diff
  have hrest (r : Account × DirectState) (hr : Holds diffs r.2 m.addr r.1) :
      let out := m.modifiedStorage.foldl
        (fun (p : Account × DirectState) kv => p.2.setStorageSlot m.addr kv.1 kv.2 p.1)
        (setAccountFromDiff m.nonce m.balance r.1, r.2)
      Evolves diffs r.2 (out.2.storeAccount m.addr out.1) := by
    have hdiff : Account.Changes r.2.witness diffs r.1 (setAccountFromDiff m.nonce m.balance r.1) := by
      unfold setAccountFromDiff
      split
      · exact .single (.setFields _ _ _)
      · exact .refl
    obtain ⟨hslots, hheld'⟩ := holds_setStorageSlots m.modifiedStorage (hr.change hdiff)
    exact hslots.trans (Evolves.storeAccount hheld')
  unfold applyModified
  dsimp only
  cases hm : m.code with
  | none => exact (hev.trans hj).trans (hrest (_, _) hheldj)
  | some code =>
    obtain ⟨hdiff, hheld'⟩ := holds_applyCodeDiff hheldj (hcode code hm)
    exact ((hev.trans hj).trans hdiff).trans (hrest _ hheld')

/-- **One step of a run.** -/
theorem evolves_step (s : DirectState) {op : Op}
    (hop : ∀ diff, op = .mutate (.applyStateDiff diff) → ∀ m ∈ diff.modifiedAccounts, ∀ code ∈ m.code,
      (m.codeHash.getD (keccak256 code), code) ∈ diffs) :
    Evolves diffs s (s.step keccak256 op) := by
  rcases op with r | m
  · cases r with
    | readStorage addr key => exact evolves_readStorage s addr key
    | readCode addr => exact evolves_readCode s addr
    | hasStorage addr => exact (evolves_observeAccount s addr).1
    | getAccount addr => exact (evolves_observeAccount s addr).1
    | readAccount | getBalance | getNonce => exact Evolves.refl s
  · cases m with
    | applyStateDiff diff =>
      refine (evolves_foldl (fun s m hm => evolves_applyModified s (hop diff rfl m hm)) s).trans
        (evolves_foldl (fun s a _ => ?_) _)
      exact (evolves_journalAddressChanged s a).trans (evolves_destruct _ a)
    | destruct addr => exact evolves_destruct s addr
    | destructDeadAmong addrs => exact evolves_destructDeadAmong s addrs
    | setNonce addr nonce =>
      simp only [step, mutate, setNonce]
      exact @evolves_setField diffs s addr _ _ (fun _ => nonce) (fun pa => pa.balance) fun _ => rfl
    | setBalance addr value =>
      simp only [step, mutate, setBalance]
      exact @evolves_setField diffs s addr _ _ (fun pa => pa.nonce) (fun _ => value) fun _ => rfl
    | addToBalance addr addend =>
      simp only [step, mutate, addToBalance]
      exact @evolves_setField diffs s addr _ _ (fun pa => pa.nonce) (fun pa => pa.balance + addend)
        fun _ => rfl
    | subtractFromBalance addr subtrahend =>
      simp only [step, mutate, subtractFromBalance]
      exact @evolves_setField diffs s addr _ _ (fun pa => pa.nonce)
        (fun pa => pa.balance - subtrahend) fun _ => rfl

end DirectState

end Zilkworm.State
