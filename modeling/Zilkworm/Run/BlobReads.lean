/-
# Reading a built blob

`DirectState::build_blob_from_accounts`, then the constructor and `sanitize`, sealed or not:
every read of the resulting `DirectState` answers with what the builder was given.  The
passes write inside the records only, and there they keep every field the builder wrote; a
lookup depends on the tables and the addresses, which stay.
-/
import Zilkworm.Witness.BlobSanitize
import Zilkworm.Run.ReadCode

namespace Zilkworm.Run

open List Lib Rlp Zilkworm.Types Witness State

variable {info : DirectAccountInfo}

/-- The code under a hash, empty if there is none. -/
def codeOf (keccak256 : Bytes → Bytes32) (codes : List Bytes) (hash : Bytes32) : Bytes :=
  (codes.find? fun c => keccak256 c = hash).getD []

/-- The value of a slot, zero if the account has no such slot. -/
def slotValue (info : DirectAccountInfo) (key : Bytes32) : Bytes32 :=
  ((info.storage.find? fun kv => kv.1 = key).map Prod.snd).getD zeroBytes32

/-- **The state reads as the account says.** -/
structure ReadsAs (keccak256 : Bytes → Bytes32) (codes : List Bytes) (s : DirectState)
    (info : DirectAccountInfo) :
    Prop where
  account : ∃ pa, s.readAccount info.addr = some pa ∧ pa.nonce = info.nonce ∧ pa.balance = info.balance ∧
    pa.codeHash = info.codeHash ∧ pa.storageRoot = info.storageRoot
  storage : ∀ key, (s.readStorage info.addr key).1 = slotValue info key
  code : (s.readCode info.addr).1 = codeOf keccak256 codes info.codeHash

/-- The state has no such account. -/
structure ReadsAbsent (s : DirectState) (addr : Address) : Prop where
  account : s.readAccount addr = none
  storage : ∀ key, (s.readStorage addr key).1 = zeroBytes32
  code : (s.readCode addr).1 = []

/-! ## Records after the passes -/

theorem addrKey8Of_toNat {addr : Bytes} (h : addr.length = 20) :
    (addrKey8Of addr).toNat = addrKey8 addr := by
  refine UInt64.toNat_ofNat_of_lt ?_
  have h1 := leNat_lt (slice addr 0 7)
  rw [slice_length_of_le (by omega)] at h1
  have h2 := (byteAt addr 19).toNat_lt
  show addrKey8 addr < 2 ^ 64
  unfold addrKey8
  omega

/-- Bytes that read alike hold the same record. -/
theorem sameRecord_of_slices {b b' : Bytes} {p : ℕ}
    (h : ∀ q k, p ≤ q → q + k ≤ p + recordSize b p → slice b' q k = slice b q k) :
    SameRecord b b' p := by
  simp only [recordSize, accountSize] at h
  have hfield : ∀ d k, d + k ≤ 256 →
      slice b' (p + d) k = slice b (p + d) k := fun d k hd => h _ _ (by omega) (by omega)
  refine ⟨⟨hfield 0 20 (by omega), ?_, ?_, hfield 64 32 (by omega), hfield 96 32 (by omega),
    congrArg leNat (hfield 136 4 (by omega))⟩, fun j hj => ⟨h _ _ ?_ ?_, h _ _ ?_ ?_⟩⟩
  · rw [accNonce, accNonce, u64At, u64At, hfield 24 8 (by omega)]
  · rw [accBalance, accBalance, hfield 32 32 (by omega)]
  all_goals
    simp only [slotPos, accountSize, slotSize] at *
    omega

section Reads

variable {keccak256 : Bytes → Bytes32} {accounts : List DirectAccountInfo} {codes : List Bytes}
  {s : BlobSections}
  {P : PreState} {m : MphfMap} {sealing : Bool} {v : CodeStoreVerified} {o : SanitizedBlob} {ns : Bytes}
  (h : BlobBuilt keccak256 accounts codes s) (hP : P.bytes = s.bytes)
  (ho : sanitizeStore keccak256 sealing v P = .ok o)
include h hP ho

/-- **A record reads as the account it was built for**, live, its slots at their values. -/
theorem record_after (hm : m ∈ P.preStateMap) {off : ℕ} (hoff : off ∈ m.forEachOffset P.bytes)
    (hrec : RecordOf info P.bytes (m.data + off + 8)) :
    RecordOf info o.bytes (m.data + off + 8) ∧ accDeleted o.bytes (m.data + off + 8) = false ∧
      ∀ j < info.storage.length, slotCurrent o.bytes (slotPos (m.data + off + 8) j) =
        slotInitial o.bytes (slotPos (m.data + off + 8) j) := by
  obtain ⟨b, hb, hbefore⟩ := sanitizeStore_before ho
  obtain ⟨b₁, hs⟩ := sanitize_accounts hb hm
  obtain ⟨-, -, h3, h4, -⟩ := sanitize_sections hb
  have hmem : ∀ i < P.stateMeta.nAccounts,
      (addrHashEntry b P.stateMeta i).entryOffset ∈ m.forEachOffset P.bytes := fun i hi => by
    obtain ⟨_, -, off', hoff', -, heq, -⟩ := h.entry_named hP hm hi
    rw [hs.entries, hs.entries_input, heq]
    exact hoff'
  have hmarks := fun r hr => hs.marks_apart hmem hoff (r := r) hr
  have hready := (hs.ready off hoff).2.frame hs.marks hmarks (hs.cleared off hoff)
  have hrec' := (hrec.same (hs.kept off hoff)).same (sameRecord_of_frame hs.marks hmarks)
  have hsize := hs.bodies off hoff
  have hrecord := (PreState.addrMapLayout hm).records off hoff
  simp only [recordSize, hrec.slotCount] at hrecord
  have hin : ∀ q k, m.data + off + 8 ≤ q → q + k ≤ m.data + off + 8 + recordSize b (m.data + off + 8) →
      slice o.bytes q k = slice b q k := fun q k _ hk => by
    simp only [recordSize, hrec'.slotCount] at hk
    exact hbefore q k (by omega)
  refine ⟨hrec'.same (sameRecord_of_slices hin), ?_, fun j hj => ?_⟩
  · have hdel := hready.deleted
    simp only [accDeleted, byteAt_eq_slice] at hdel ⊢
    rwa [hin _ _ (by omega) (by simp only [recordSize, accountSize]; omega)]
  · have hcur := hready.current j (by rw [hrec'.slotCount]; exact hj)
    rw [slotCurrent, slotInitial] at hcur ⊢
    rw [hin _ _ (by simp only [slotPos]; omega) (by
        simp only [recordSize, hrec'.slotCount, slotPos, accountSize, slotSize]; omega),
      hin _ _ (by simp only [slotPos]; omega) (by
        simp only [recordSize, hrec'.slotCount, slotPos, accountSize, slotSize]; omega), hcur]

/-- **Lookups answer as they did before the passes.** -/
theorem findEntry_after (addr : Address) :
    findEntry o.bytes P.preStateMap addr = findEntry P.bytes P.preStateMap addr := by
  cases hm : P.preStateMap with
  | none => rw [findEntry, findEntry, Option.bind_none, Option.bind_none]
  | some m =>
    obtain ⟨rs, hf, hrs⟩ := sanitizeStore_frame ho hm
    have hlayout := (PreState.addrMapLayout hm).layout
    rw [findEntry, findEntry, Option.bind_some, Option.bind_some]
    refine hlayout.find_map_congr hf (fun r hr => .inl (hrs r hr)) _ (fun off hoff => ?_) _
    obtain ⟨info, -, hrec, -⟩ := h.record hP hm hoff
    have hkept : slice o.bytes (m.data + off + 8) 20 = slice P.bytes (m.data + off + 8) 20 :=
      (record_after h hP ho hm hoff hrec).1.addr.trans hrec.addr.symm
    simp only [MphfMap.bodyIfKey, addr.2, Nat.add_zero, hkept]
    split_ifs <;> rfl

/-- An account is found at its record. -/
theorem findEntry_account (hi : info ∈ accounts) :
    ∃ m ∈ P.preStateMap, ∃ off ∈ m.forEachOffset P.bytes,
      findEntry o.bytes P.preStateMap info.addr = some off ∧
        RecordOf info P.bytes (m.data + off + 8) := by
  obtain ⟨r, hr, hb, hsome⟩ := h.preStateMap_eq hP (ne_nil_of_mem hi)
  obtain ⟨off, he, hfind⟩ := hb.found (h.accountSections hr) hi
  refine ⟨_, hsome, off, ?_, ?_, ?_⟩
  · rw [hP]
    exact (h.mem_offsets hr hb).mpr ⟨info, hi, he⟩
  · rw [findEntry_after h hP ho, hsome, hP]
    rw [addrKey8Of_toNat info.addr.2] at hfind
    rw [findEntry, Option.bind_some, hfind, Option.map_some]
    congr 1
    dsimp only
    omega
  · rw [hP]
    exact (recordOf_of_liesAt (h.record_liesAt hr hb he).2 (hb.storage_lt he)).1

/-- Another address is not found. -/
theorem findEntry_other {addr : Address} (hne : ∀ info ∈ accounts, info.addr ≠ addr) :
    findEntry o.bytes P.preStateMap addr = none := by
  rw [findEntry_after h hP ho]
  by_cases hnil : accounts = []
  · rw [h.preStateMap_nil hP hnil]
    rfl
  · obtain ⟨r, hr, hb, hsome⟩ := h.preStateMap_eq hP hnil
    rw [hsome, hP, findEntry, Option.bind_some,
      hb.built.missing (h.accountSections hr) record_whole addr.2]
    · rfl
    · intro body hbody heq
      obtain ⟨info, hi, rfl⟩ := mem_map.mp hbody
      rw [accountInfoToPreAccountBytes_take] at heq
      exact hne info hi (Subtype.ext heq)

/-- The slots of an account's record. -/
theorem slots_after (hm : m ∈ P.preStateMap) {off : ℕ} (hoff : off ∈ m.forEachOffset P.bytes)
    (hrec : RecordOf info P.bytes (m.data + off + 8)) :
    (Account.read o.bytes (m.data + off + 8)).slots =
      (sortedStorage info.storage).map fun kv => ⟨kv.1, kv.2, kv.2⟩ := by
  obtain ⟨hrec', -, hcur⟩ := record_after h hP ho hm hoff hrec
  have hlen := (sortedStorage_perm info.storage).length_eq
  refine ext_getElem? fun i => ?_
  show ((range (accSlotCount o.bytes (m.data + off + 8))).map _)[i]? = _
  rw [hrec'.slotCount, ← hlen, getElem?_map, getElem?_map]
  by_cases hi : i < (sortedStorage info.storage).length
  · obtain ⟨hkey, hinit⟩ := hrec'.slots (getElem?_eq_getElem hi)
    rw [getElem?_range hi, getElem?_eq_getElem hi, Option.map_some, Option.map_some,
      hcur i (by omega), hkey, hinit, FixedBytes.load_self, FixedBytes.load_self]
  · rw [getElem?_eq_none (by simpa using hi), getElem?_eq_none (by omega)]
    rfl

/-- No mark falls on a code binding. -/
theorem codeFieldsKept : CodeFieldsKept P := by
  intro m hm off hoff _ i hi
  obtain ⟨b, hb, -⟩ := sanitizeStore_inv ho
  obtain ⟨b₁, hs⟩ := sanitize_accounts hb hm
  obtain ⟨_, -, off', hoff', -, heq, -⟩ := h.entry_named hP hm hi
  rw [PreState.markPlace, heq]
  dsimp only
  by_cases hsame : off = off'
  · subst hsame
    exact ⟨.inr (by omega), .inr (by omega)⟩
  · have hap := apart_of_pairwise hs.apart hoff hoff' hsame
    have h1 := (PreState.addrMapLayout hm).records off hoff
    have h2 := (PreState.addrMapLayout hm).records off' hoff'
    simp only [recordSize, accountSize] at h1 h2
    unfold Apart at hap ⊢
    omega

/-- **A code is found under its hash**, in the store or in the index of a sealed one. -/
theorem findCode_after (ns : Bytes) (hon : Honest keccak256 accounts codes) (hash : Bytes32) :
    ((WitnessView.ofStore P o ns).findCode hash).map Prod.snd = codes.find? fun c =>
      keccak256 c = hash := by
  have hunique : ∀ {c d : Bytes}, c ∈ codes → d ∈ codes → keccak256 c = hash →
      keccak256 d = hash → c = d :=
    fun hc hd hch hdh => hon.codeHashes (.inl hc) (.inl hd) (hch.trans hdh.symm)
  cases hf : (WitnessView.ofStore P o ns).findCode hash with
  | some r =>
    obtain ⟨m, hm, off, hoff, hkey, -, hcode⟩ := ofStore_findCode ho hf
    obtain ⟨c, hc, hpay, hhash⟩ := h.code_entry hP hm hoff
    have hch : keccak256 c = hash := Subtype.ext (hhash.symm.trans hkey)
    obtain ⟨d, hd⟩ :=
      Option.isSome_iff_exists.mp (find?_isSome (p := fun c => decide (keccak256 c = hash)).mpr
      ⟨c, hc, by simpa using hch⟩)
    have hdh : keccak256 d = hash := by simpa using find?_some hd
    rw [hd, Option.map_some, hcode, hpay, hunique hc (mem_of_find?_eq_some hd) hch hdh]
  | none =>
    rw [Option.map_none, eq_comm, find?_eq_none]
    intro c hc hch
    obtain rfl : keccak256 c = hash := by simpa using hch
    obtain ⟨m, hm, off, hoff, hfind, hkey⟩ := h.code_found hP hon hc
    obtain ⟨b, hb, ⟨hno, hbytes⟩ | ⟨m', hm', starts, last, -, -, hyes, -, hindex⟩⟩ :=
      sanitizeStore_inv ho
    · have hsame := sanitize_sameCode hb m hm _ (keccak256 c).2
      rw [Option.mem_def] at hm
      simp only [WitnessView.ofStore, hno, Bool.false_eq_true, if_false, WitnessView.ofBlob, hm,
        Option.bind_some, hbytes, hsame, hfind, Option.map_some, reduceCtorEq] at hf
    · obtain rfl := Option.mem_unique hm hm'
      obtain ⟨-, hlt, hge⟩ := payload_length hm hoff
      rw [Option.mem_def] at hm
      simp only [WitnessView.ofStore, hyes, if_true, findSealedCode, hm, Option.bind_some,
        Option.map_eq_none_iff, find?_eq_none, hindex] at hf
      refine hf _ (mem_map_of_mem hoff) ?_
      rw [decide_eq_true_eq]
      refine ⟨?_, hkey⟩
      dsimp only
      rw [Nat.mod_eq_of_lt (by omega)]
      exact hge

/-- The record `lookup_account_` finds for an account. -/
theorem lookup_after (ns : Bytes) (hi : info ∈ accounts) :
    ∃ m ∈ P.preStateMap, ∃ off ∈ m.forEachOffset P.bytes, RecordOf info P.bytes (m.data + off + 8) ∧
      (DirectState.ofStore P o ns).lookupAccount info.addr =
        some (Account.read o.bytes (m.data + off + 8)) := by
  obtain ⟨m, hm, off, hoff, hfind, hrec⟩ := findEntry_account h hP ho hi
  refine ⟨m, hm, off, hoff, hrec, ?_⟩
  have hread : (DirectState.ofStore P o ns).records off = Account.read o.bytes (m.data + off + 8) := by
    rw [Option.mem_def] at hm
    simp only [DirectState.ofStore, recordsOf, hm, Option.map_some, Option.getD_some]
  have hfind : (DirectState.ofStore P o ns).witness.find info.addr = some off := hfind
  rw [DirectState.lookupAccount, hfind]
  exact congrArg some hread

/-- **Every account reads as it was given.** -/
theorem readsAs (hempty : keccak256 [] = kEmptyHash) (hon : Honest keccak256 accounts codes)
    (hi : info ∈ accounts) : ReadsAs keccak256 codes (DirectState.ofStore P o ns) info := by
  obtain ⟨m, hm, off, hoff, hrec, hlook⟩ := lookup_after h hP ho ns hi
  obtain ⟨hrec', hdel, -⟩ := record_after h hP ho hm hoff hrec
  have hslots := slots_after h hP ho hm hoff hrec
  set pa := Account.read o.bytes (m.data + off + 8) with hpa
  have hdeleted : pa.deleted = false := hdel
  have hcodeHash : pa.codeHash = info.codeHash := by
    show FixedBytes.load 32 (accCodeHash o.bytes (m.data + off + 8)) = _
    rw [hrec'.codeHash, FixedBytes.load_self]
  have hobserve : (DirectState.ofStore P o ns).observeAccount info.addr =
      (pa, DirectState.ofStore P o ns) := by
    rw [DirectState.observeAccount, hlook]
  refine ⟨⟨pa, ?_, hrec'.nonce, hrec'.balance, hcodeHash, ?_⟩, fun key => ?_, ?_⟩
  · rw [DirectState.readAccount, hlook, Option.filter_some, hdeleted]
    rfl
  · show FixedBytes.load 32 (accStorageRoot o.bytes (m.data + off + 8)) = _
    rw [hrec'.storageRoot, FixedBytes.load_self]
  · -- the slots ascend, so that `find_slot` finds the key's
    have hsorted : pa.slots.Pairwise fun x y => x.key.val < y.key.val := by
      rw [hslots]
      exact pairwise_map.mpr (sortedStorage_strict (hon.slots info hi))
    have hvalue : slotValue info key =
        ((pa.slots.find? fun s => s.key = key).map Slot.current).getD zeroBytes32 := by
      have hperm := sortedStorage_perm info.storage
      have hfind : (sortedStorage info.storage).find? (fun kv => kv.1 = key) =
          info.storage.find? fun kv => kv.1 = key := by
        refine find?_perm hperm fun x hx y hy hxk hyk => ?_
        rw [decide_eq_true_eq] at hxk hyk
        exact inj_on_of_nodup_map (hon.slots info hi) (hperm.mem_iff.mp hx) (hperm.mem_iff.mp hy)
          (hxk.trans hyk.symm)
      rw [slotValue, hslots, find?_map, ← hfind]
      show _ = (Option.map Slot.current (Option.map _ ((sortedStorage info.storage).find? fun kv =>
        kv.1 = key))).getD zeroBytes32
      rw [Option.map_map]
      rfl
    rw [hvalue, ← findSlot_spec hsorted, DirectState.readStorage, hobserve]
    dsimp only
    rw [if_neg (by rw [hdeleted]; simp)]
    cases hslot : (findSlot pa.slots key).bind fun i => pa.slots[i]? <;> rfl
  · rw [DirectState.readCode, hobserve]
    dsimp only
    rw [DirectState.readCodeOf, hdeleted]
    simp only [Bool.false_eq_true, if_false]
    split_ifs with hlen hnone
    · -- the record's binding leads to its code
      obtain ⟨cm, hcm, e, he, hplace, hsize, hkey⟩ :=
        sanitizeStore_record ho (codeFieldsKept h hP ho) hm hoff
        (Nat.pos_of_ne_zero hlen.1)
      obtain ⟨c, hc, hpay, hhash⟩ := h.code_entry hP hcm he
      have hch : keccak256 c = info.codeHash :=
        Subtype.ext (hhash.symm.trans (hkey.trans hrec'.codeHash))
      have hcode : (WitnessView.ofStore P o ns).codeAt (accCodeStoreOffset o.bytes (m.data + off + 8))
          (accCodeStoreLen o.bytes (m.data + off + 8)) = c := by
        rw [hplace, hsize, ofStore_codeAt ho hcm he, hpay]
      refine Eq.trans hcode ?_
      obtain ⟨d, hd⟩ := Option.isSome_iff_exists.mp
        (find?_isSome (p := fun c => decide (keccak256 c = info.codeHash)).mpr
        ⟨c, hc, by simpa using hch⟩)
      have hdh : keccak256 d = info.codeHash := by simpa using find?_some hd
      rw [codeOf, hd, Option.getD_some]
      exact hon.codeHashes (.inl hc) (.inl (mem_of_find?_eq_some hd)) (hch.trans hdh.symm)
    · -- the code of the empty hash is empty
      rw [codeOf]
      cases hd : codes.find? (fun c => keccak256 c = info.codeHash) with
      | none => rfl
      | some d =>
        have hdh : keccak256 d = info.codeHash := by simpa using find?_some hd
        refine (hon.codeHashes (.inl (mem_of_find?_eq_some hd)) (.inr rfl) ?_).symm
        rw [hdh, hempty, ← hcodeHash, hnone]
    · have hfind := findCode_after h hP ho ns hon info.codeHash
      have hcreated : ((DirectState.ofStore P o ns).createdCode.find pa.codeHash) = none := rfl
      have hw : (DirectState.ofStore P o ns).witness = WitnessView.ofStore P o ns := rfl
      rw [hcreated, hcodeHash, codeOf, ← hfind, hw]
      cases (WitnessView.ofStore P o ns).findCode info.codeHash <;> rfl

/-- Every other address reads as absent. -/
theorem readsAbsent {addr : Address} (hne : ∀ info ∈ accounts, info.addr ≠ addr) :
    ReadsAbsent (DirectState.ofStore P o ns) addr := by
  have hfind : (DirectState.ofStore P o ns).witness.find addr = none := findEntry_other h hP ho hne
  have hlook : (DirectState.ofStore P o ns).lookupAccount addr = none := by
    rw [DirectState.lookupAccount, hfind]
    rfl
  have hobserve : ((DirectState.ofStore P o ns).observeAccount addr).1 = Account.absent addr := by
    rw [DirectState.observeAccount, hlook]
  refine ⟨by rw [DirectState.readAccount, hlook]; rfl, fun key => ?_, ?_⟩
  · rw [DirectState.readStorage, DirectState.observeAccount, hlook]
    rfl
  · unfold DirectState.readCode DirectState.readCodeOf
    dsimp only
    rw [hobserve]
    rfl

end Reads

/-! ## The builder -/

theorem Honest.perm {keccak256 : Bytes → Bytes32} {accounts accounts' : List DirectAccountInfo}
    {codes : List Bytes}
    (h : Honest keccak256 accounts codes) (hp : accounts'.Perm accounts) :
    Honest keccak256 accounts' codes := by
  refine ⟨(hp.map _).nodup_iff.mpr h.addrs, fun info hi => h.slots info (hp.mem_iff.mp hi),
    fun info hi => h.code info (hp.mem_iff.mp hi), h.addrHashes.mono ?_, h.codeHashes⟩
  rintro a ⟨info, hi, rfl⟩
  exact ⟨info, hp.mem_iff.mp hi, rfl⟩

/-- **What the builder lays out.** -/
theorem buildBlob_built {keccak256 : Bytes → Bytes32} {accounts : List DirectAccountInfo}
    (blockHashes : List BlockHashEntry) {codes : List Bytes} {codeStore : Bytes}
    (hstore : CodeStoreOf keccak256 codes codeStore) (hon : Honest keccak256 accounts codes)
    (hsize : ∀ blob ∈ buildBlobFromAccounts keccak256 accounts blockHashes codeStore,
    blob.length < 2 ^ 32) :
    ∃ sections : BlobSections, buildBlobFromAccounts keccak256 accounts blockHashes codeStore =
      some sections.bytes ∧
      BlobBuilt keccak256 (accounts.insertionSort fun x y => x.addr.val ≤
        y.addr.val) codes sections := by
  have hperm := perm_insertionSort (fun x y : DirectAccountInfo => x.addr.val ≤ y.addr.val) accounts
  have hon' := Honest.perm hon hperm
  unfold buildBlobFromAccounts at hsize ⊢
  generalize accounts.insertionSort (fun x y => x.addr.val ≤ y.addr.val) = sorted at *
  dsimp only at hsize ⊢
  obtain ⟨mphf, hmphf⟩ : ∃ mphf, accountMap sorted = some mphf := by
    by_cases hnil : sorted = []
    · exact ⟨[], by rw [accountMap, if_pos hnil]⟩
    · rw [accountMap_eq sorted hnil]
      exact MphfBuilder.finalize_isSome _ _ (by decide)
  rw [hmphf] at hsize ⊢
  simp only [Option.bind_eq_bind, Option.bind_some, Option.pure_def, Option.mem_def, Option.some.injEq,
    forall_eq'] at hsize ⊢
  set sections : BlobSections :=
    { mphf := mphf
      addrHashes := addrHashTable keccak256 sorted mphf
      blockHashes := blockHashes.insertionSort fun x y => x.blockNumber.toNat ≤ y.blockNumber.toNat
      codeStore := codeStore } with hsections
  have hparts : mphf.length ≤ sections.bytes.length ∧ codeStore.length ≤ sections.bytes.length := by
    have h1 := le_align8 mphf.length
    have h2 := le_align8 codeStore.length
    simp only [BlobSections.bytes, length_append, padded8_length, hsections]
    omega
  have hmap : sorted ≠ [] → ∃ r, mphf = r.bytes kMphfAddrMapMagic ∧
      AccountsBuilt sorted r := fun hne => by
    refine accountMap_built hne hon'.addrs hmphf ?_
    by_cases hnil : mphf = []
    · rw [hnil]
      decide
    · rw [if_neg fun hc => hnil hc.2] at hsize
      omega
  have hbuilt : ¬ (sorted ≠ [] ∧ mphf = []) := by
    rintro ⟨hne, hnil⟩
    obtain ⟨r, hr, -⟩ := hmap hne
    have hlen := congrArg List.length hr
    rw [hnil, Region.bytes_length, Region.dataSize, length_nil] at hlen
    omega
  rw [if_neg hbuilt] at hsize
  refine ⟨sections, by rw [if_neg hbuilt], hsize, rfl, hmap, ?_⟩
  rcases hstore with hnone | ⟨limits, hlimits⟩
  · exact .inl hnone
  · refine .inr (MphfBuilder.finalize_built (fun hmem => ?_) (by decide) hlimits
      (lt_of_le_of_lt hparts.2 hsize))
    have := code_whole _ hmem
    rw [length_nil] at this
    omega

/-- **The builder writes a faithful witness.**  Accounts with distinct addresses and slot keys, and
a code store of codes under their hashes that has the code of every account with one: the blob
passes the layout check and `sanitize`, in either build and with any handshake, and the state over
it reads as each account says, and every other address as absent. -/
theorem buildBlobFromAccounts_faithful (keccak256 : Bytes → Bytes32) (hempty : keccak256 [] = kEmptyHash)
    (accounts : List DirectAccountInfo) (blockHashes : List BlockHashEntry) (codes : List Bytes)
    (codeStore : Bytes)
    (hstore : CodeStoreOf keccak256 codes codeStore) (hon : Honest keccak256 accounts codes)
    (hsize : ∀ blob ∈ buildBlobFromAccounts keccak256 accounts blockHashes codeStore,
    blob.length < 2 ^ 32) (addr : ℕ) (haddr : addr % 8 = 0) :
    ∃ P : PreState, P.addr = addr ∧
      buildBlobFromAccounts keccak256 accounts blockHashes codeStore = some P.bytes ∧
      ∀ (sealing : Bool) (v : CodeStoreVerified) (ns : Bytes), ∃ o,
        sanitizeStore keccak256 sealing v P = .ok o ∧
        (∀ info ∈ accounts, ReadsAs keccak256 codes (DirectState.ofStore P o ns) info) ∧
        ∀ a : Address, (∀ info ∈ accounts, info.addr ≠ a) →
          ReadsAbsent (DirectState.ofStore P o ns) a := by
  obtain ⟨sections, hblob, hbuilt⟩ := buildBlob_built blockHashes hstore hon hsize
  have hperm := perm_insertionSort (fun x y : DirectAccountInfo => x.addr.val ≤ y.addr.val) accounts
  have hon' := Honest.perm hon hperm
  obtain ⟨P, haddr, hP⟩ : ∃ P : PreState, P.addr = addr ∧ P.bytes = sections.bytes :=
    ⟨⟨addr, sections.bytes, hbuilt.valid haddr⟩, rfl, rfl⟩
  refine ⟨P, haddr, hP ▸ hblob, fun sealing v ns => ?_⟩
  obtain ⟨o, ho⟩ := hbuilt.sanitizeStore_ok hP hon' sealing v
  refine ⟨o, ho, fun info hi => readsAs hbuilt hP ho hempty hon' (hperm.mem_iff.mpr hi), fun a ha => ?_⟩
  exact readsAbsent hbuilt hP ho fun info hi => ha info (hperm.mem_iff.mp hi)

namespace Built

/-- A contract with code and two slots, given in descending order. -/
def contract : DirectAccountInfo where
  addr := Cleared.addr
  nonce := 1
  balance := 5
  codeHash := Cleared.keccak256 Cleared.codeA
  storageRoot := zeroBytes32
  codeStoreLen := 5
  storage :=
    [(⟨replicate 32 2, rfl⟩, ⟨replicate 32 9, rfl⟩), (⟨replicate 32 1, rfl⟩, ⟨replicate 32 8, rfl⟩)]

/-- The code store of its code. -/
def codeStore : Bytes :=
  ((MphfBuilder.ofBodies 32 hashKey8Of (codeBodies Cleared.keccak256 [Cleared.codeA])).finalize
    kMphfCodeStoreMagic {}).getD []

end Built

open Built

/-- A contract with two slots and code. -/
theorem buildBlobFromAccounts_contract :
    ∃ P : PreState, buildBlobFromAccounts Cleared.keccak256 [contract] [] codeStore = some P.bytes ∧
      ∃ o, sanitizeStore Cleared.keccak256 true {} P = .ok o ∧
        ((DirectState.ofStore P o []).readStorage contract.addr ⟨replicate 32 1, rfl⟩).1 =
          ⟨replicate 32 8, rfl⟩ ∧
        ((DirectState.ofStore P o []).readCode contract.addr).1 = Cleared.codeA := by
  have hstore : CodeStoreOf Cleared.keccak256 [Cleared.codeA] codeStore := by
    obtain ⟨region, hregion⟩ := @MphfBuilder.finalize_isSome
      (MphfBuilder.ofBodies 32 hashKey8Of (codeBodies Cleared.keccak256 [Cleared.codeA]))
      kMphfCodeStoreMagic {}
      (by decide)
    exact .inr ⟨{}, by rw [codeStore, hregion]; rfl⟩
  have hon : Honest Cleared.keccak256 [contract] [Cleared.codeA] := by
    refine ⟨by decide, by decide, ?_, ?_, ?_⟩
    · intro info hi _
      obtain rfl := mem_singleton.mp hi
      exact ⟨_, mem_singleton_self _, rfl, by decide⟩
    · rintro a ⟨info, hi, rfl⟩ b ⟨info', hi', rfl⟩ _
      obtain rfl := mem_singleton.mp hi
      obtain rfl := mem_singleton.mp hi'
      rfl
    · rintro a ha b hb hab
      rcases ha with ha | rfl <;> rcases hb with hb | rfl
      · exact (mem_singleton.mp ha).trans (mem_singleton.mp hb).symm
      · obtain rfl := mem_singleton.mp ha
        exact absurd hab (by decide +kernel)
      · obtain rfl := mem_singleton.mp hb
        exact absurd hab (by decide +kernel)
      · rfl
  have hsize : ∀ blob ∈ buildBlobFromAccounts Cleared.keccak256 [contract] [] codeStore,
      blob.length < 2 ^ 32 := by
    decide +kernel
  obtain ⟨P, -, hblob, hall⟩ :=
    buildBlobFromAccounts_faithful Cleared.keccak256 (by decide +kernel) [contract] []
    [Cleared.codeA] codeStore hstore hon hsize 0 rfl
  obtain ⟨o, ho, hreads, -⟩ := hall true {} []
  have hread := hreads contract (mem_singleton_self _)
  refine ⟨P, hblob, o, ho, (hread.storage _).trans (by decide), hread.code.trans ?_⟩
  decide +kernel

end Zilkworm.Run
