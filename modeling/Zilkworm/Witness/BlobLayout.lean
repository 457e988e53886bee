/-
# The layout of a built blob

What `DirectState::build_blob_from_accounts` writes lies where the constructor of
`DirectState` and `sanitize` read it: the meta header, the sections it names, the records in
the account map with their slots, and the entries of the address-hash table, each with the
offset of its record.  The layout check passes.
-/
import Zilkworm.Witness.BlobBuilder
import Zilkworm.Witness.MphfRoundTrip

namespace Zilkworm.Witness

open List Lib Rlp Zilkworm.Types

variable {off : ℕ}

/-! ## Sections -/

theorem liesAt_padded8 {b x : Bytes} (h : LiesAt b off (padded8 x)) : LiesAt b off x :=
  (liesAt_append.mp h).1

namespace BlobSections

variable (s : BlobSections)

theorem metaBytes_length : s.metaBytes.length = preStateMetaSize := by
  simp [metaBytes, preStateMetaSize]

/-- The entries of the address-hash table have their widths. -/
def Entries : Prop := ∀ e ∈ s.addrHashes, e.addrHash.length = 32 ∧ e.addr.length = 20

variable {s}

theorem Entries.bytes_length (h : s.Entries) :
    ∀ e ∈ s.addrHashes, (AddrHashEntry.bytes e).length = addrHashEntrySize :=
  fun e he => by simp [AddrHashEntry.bytes, h e he, addrHashEntrySize]

theorem blockHashEntry_bytes_length (e : BlockHashEntry) : e.bytes.length = blockHashEntrySize := by
  simp [BlockHashEntry.bytes, e.blockHash.2, blockHashEntrySize]

theorem bytes_length (h : s.Entries) :
    s.bytes.length = s.codeStoreOffset + align8 s.codeStore.length := by
  simp only [bytes, length_append, padded8_length, metaBytes_length,
    flatMap_length_of_mem h.bytes_length,
    flatMap_length blockHashEntry_bytes_length, codeStoreOffset, blockHashesOffset,
    addrHashesOffset, prestateOffset]

/-- What lies where. -/
structure Placed (s : BlobSections) : Prop where
  head : LiesAt s.bytes 0 s.metaBytes
  mphf : LiesAt s.bytes prestateOffset s.mphf
  addrHashes : LiesAt s.bytes s.addrHashesOffset (s.addrHashes.flatMap AddrHashEntry.bytes)
  blockHashes : LiesAt s.bytes s.blockHashesOffset (s.blockHashes.flatMap BlockHashEntry.bytes)
  codeStore : LiesAt s.bytes s.codeStoreOffset s.codeStore

theorem placed (h : s.Entries) : s.Placed := by
  have hself := LiesAt.self s.bytes
  conv at hself => arg 3; unfold bytes
  obtain ⟨hself, hcode⟩ := liesAt_append.mp hself
  obtain ⟨hself, hblocks⟩ := liesAt_append.mp hself
  obtain ⟨hself, haddrs⟩ := liesAt_append.mp hself
  obtain ⟨hmeta, hmphf⟩ := liesAt_append.mp hself
  simp only [length_append, padded8_length, metaBytes_length, flatMap_length_of_mem h.bytes_length,
    flatMap_length blockHashEntry_bytes_length, Nat.zero_add] at hcode hblocks haddrs hmphf
  exact ⟨liesAt_padded8 hmeta, liesAt_padded8 hmphf, liesAt_padded8 haddrs, liesAt_padded8 hblocks,
    liesAt_padded8 hcode⟩

/-- The sections come one behind the other, each at a multiple of eight. -/
theorem offsets_le (s : BlobSections) :
    prestateOffset = 72 ∧ prestateOffset + s.mphf.length ≤ s.addrHashesOffset ∧
      s.addrHashesOffset % 8 = 0 ∧
    s.addrHashesOffset + addrHashEntrySize * s.addrHashes.length ≤ s.blockHashesOffset ∧
    s.blockHashesOffset % 8 = 0 ∧
    s.blockHashesOffset + blockHashEntrySize * s.blockHashes.length ≤ s.codeStoreOffset ∧
    s.codeStoreOffset % 8 = 0 := by
  have h0 : prestateOffset = 72 := rfl
  have h1 := le_align8 s.mphf.length
  have h2 := le_align8 (addrHashEntrySize * s.addrHashes.length)
  have h3 := le_align8 (blockHashEntrySize * s.blockHashes.length)
  have h4 := align8_mod s.mphf.length
  have h5 := align8_mod (addrHashEntrySize * s.addrHashes.length)
  have h6 := align8_mod (blockHashEntrySize * s.blockHashes.length)
  simp only [codeStoreOffset, blockHashesOffset, addrHashesOffset]
  omega

/-- The meta header as the reader sees it. -/
def metaOf (s : BlobSections) : PreStateMeta where
  magic := kMagic
  version := kVersion
  nAccounts := s.addrHashes.length
  nBlockHashes := s.blockHashes.length
  prestateOffset := prestateOffset
  addrHashesOffset := s.addrHashesOffset
  blockHashesOffset := s.blockHashesOffset
  codeStoreOffset := s.codeStoreOffset
  codeStoreSize := s.codeStore.length

theorem read_bytes (h : s.Entries) (hsize : s.bytes.length < 2 ^ 32) :
    PreStateMeta.read s.bytes = s.metaOf := by
  have hwords := (liesAt_append.mp (placed h).head).1
  have hword {i n : ℕ} (hi : _ = some n) (hn : n < 2 ^ 32) :=
    (hwords.row (toLe_length 4) (i := i) hi).u32At_eq hn
  rw [bytes_length h] at hsize
  obtain ⟨h0, h1, -, h2, -, h3, -⟩ := s.offsets_le
  have h4 := le_align8 s.codeStore.length
  simp only [addrHashEntrySize, blockHashEntrySize] at h2 h3
  have e0 := @hword 0 _ rfl (by decide)
  have e1 := @hword 1 _ rfl (by decide)
  have e2 := @hword 2 _ rfl (by omega)
  have e3 := @hword 3 _ rfl (by omega)
  have e4 := @hword 4 _ rfl (by decide)
  have e5 := @hword 5 _ rfl (by omega)
  have e6 := @hword 6 _ rfl (by omega)
  have e7 := @hword 7 _ rfl (by omega)
  have e8 := @hword 8 _ rfl (by omega)
  simp only [PreStateMeta.read, metaOf, PreStateMeta.mk.injEq]
  exact ⟨e0, e1, e2, e3, e4, e5, e6, e7, e8⟩

end BlobSections

/-! ## Records -/

theorem slotBytes_length (kv : Bytes32 × Bytes32) : (slotBytes kv).length = slotSize := by
  simp [slotBytes, kv.1.2, kv.2.2, slotSize]

theorem sortedStorage_perm (storage : List (Bytes32 × Bytes32)) : (sortedStorage storage).Perm storage :=
  perm_insertionSort _ _

section Record

variable (info : DirectAccountInfo)

theorem accountBytes_length (n : ℕ) : (accountBytes info n).length = accountSize := by
  simp [accountBytes, info.addr.2, info.codeHash.2, info.storageRoot.2, accountSize]

theorem accountInfoToPreAccountBytes_length :
    (accountInfoToPreAccountBytes info).length = accountSize + slotSize * info.storage.length := by
  rw [accountInfoToPreAccountBytes, length_append, accountBytes_length, flatMap_length slotBytes_length,
    (sortedStorage_perm info.storage).length_eq]

/-- A record's bytes start with its key. -/
theorem accountInfoToPreAccountBytes_take :
    (accountInfoToPreAccountBytes info).take 20 = info.addr.val := by
  rw [accountInfoToPreAccountBytes, accountBytes]
  simp only [append_assoc]
  rw [take_append_of_le_length (by rw [info.addr.2]), take_of_length_le (by rw [info.addr.2])]

/-- **The record at `p` is the account's**: its fields and its slots' keys and initial values. -/
structure RecordOf (b : Bytes) (p : ℕ) : Prop where
  addr : accAddr b p = info.addr.val
  nonce : accNonce b p = info.nonce
  balance : accBalance b p = info.balance
  codeHash : accCodeHash b p = info.codeHash.val
  storageRoot : accStorageRoot b p = info.storageRoot.val
  slotCount : accSlotCount b p = info.storage.length
  slots : ∀ {i kv}, (sortedStorage info.storage)[i]? = some kv →
    slotKey b (slotPos p i) = kv.1.val ∧ slotInitial b (slotPos p i) = kv.2.val

variable {info} {b b' : Bytes} {p : ℕ}

/-- A record reads as the account it was written for. -/
theorem recordOf_of_liesAt (h : LiesAt b p (accountInfoToPreAccountBytes info))
    (hn : info.storage.length < 2 ^ 32) :
    RecordOf info b p ∧ accCodeStoreLen b p = info.codeStoreLen.toNat := by
  obtain ⟨hacc, hslots⟩ := liesAt_append.mp h
  rw [accountBytes_length] at hslots
  obtain ⟨hacc, -⟩ := liesAt_append.mp hacc
  obtain ⟨hacc, -⟩ := liesAt_append.mp hacc
  obtain ⟨hacc, hcount⟩ := liesAt_append.mp hacc
  obtain ⟨hacc, hlen⟩ := liesAt_append.mp hacc
  obtain ⟨hacc, -⟩ := liesAt_append.mp hacc
  obtain ⟨hacc, hroot⟩ := liesAt_append.mp hacc
  obtain ⟨hacc, hhash⟩ := liesAt_append.mp hacc
  obtain ⟨hacc, hbalance⟩ := liesAt_append.mp hacc
  obtain ⟨hacc, hnonce⟩ := liesAt_append.mp hacc
  obtain ⟨haddr, -⟩ := liesAt_append.mp hacc
  simp only [length_append, info.addr.2, info.codeHash.2, info.storageRoot.2, toLe_length,
    length_replicate, Nat.reduceAdd] at hcount hlen hroot hhash hbalance hnonce
  refine ⟨⟨haddr.slice_of_length info.addr.2, ?_, ?_, hhash.slice_of_length info.codeHash.2,
    hroot.slice_of_length info.storageRoot.2, hcount.u32At_eq hn, fun hkv => ?_⟩,
    hlen.u32At_eq info.codeStoreLen.toNat_lt⟩
  · rw [accNonce, hnonce.u64At_eq info.nonce.isLt]
    exact BitVec.ofNat_toNat _ _
  · rw [accBalance, hbalance.slice_of_length (toLe_length _ _), leNat_toLe,
      Nat.mod_eq_of_lt (info.balance.isLt.trans_le (by norm_num))]
    exact BitVec.ofNat_toNat _ _
  · rename_i i kv
    obtain ⟨hslot, -⟩ := liesAt_append.mp (hslots.row slotBytes_length hkv)
    obtain ⟨hkey, hinit⟩ := liesAt_append.mp hslot
    rw [kv.1.2] at hinit
    exact ⟨hkey.slice_of_length kv.1.2, hinit.slice_of_length kv.2.2⟩

/-- What keeps the record keeps whose it is. -/
theorem RecordOf.same (h : RecordOf info b p) (hs : SameRecord b b' p) : RecordOf info b' p := by
  refine ⟨hs.addr.trans h.addr, hs.nonce.trans h.nonce, hs.balance.trans h.balance,
    hs.codeHash.trans h.codeHash,
    hs.storageRoot.trans h.storageRoot, hs.slotCount.trans h.slotCount, fun hkv => ?_⟩
  have hlt := (List.getElem?_eq_some_iff.mp hkv).1
  rw [(sortedStorage_perm info.storage).length_eq, ← h.slotCount] at hlt
  exact ⟨(hs.slots _ hlt).1.trans (h.slots hkv).1, (hs.slots _ hlt).2.trans (h.slots hkv).2⟩

end Record

/-! ## The account map -/

/-- The first hit of a search is the first element that has one. -/
theorem find?_of_findSome? {α β : Type} {f : α → Option β} {p : α → Bool} (hp : ∀ a, (f a).isSome = p a)
    {l : List α} {x : β} (h : l.findSome? f = some x) : ∃ a, l.find? p = some a ∧ f a = some x := by
  induction l with
  | nil => cases h
  | cons a l ih =>
    rw [findSome?_cons] at h
    cases hf : f a with
    | none =>
      rw [hf] at h
      rw [find?_cons_of_neg (by rw [← hp, hf]; exact Bool.false_ne_true)]
      exact ih h
    | some y =>
      rw [hf] at h
      exact ⟨a, find?_cons_of_pos (by rw [← hp, hf]; rfl), hf.trans h⟩

/-- The offset the builder finds for an address is that of the entry a lookup finds. -/
theorem entryOffsetForAddr_of_find {mphf addr : Bytes} {len : ℕ} (haddr : addr.length = 20)
    (h : (MphfMap.reset mphf 0).find mphf 0 (addrKey8Of addr).toNat addr =
      some ((MphfMap.reset mphf 0).data + off + 8, len)) : entryOffsetForAddr mphf addr = off := by
  have hne : mphf ≠ [] := by rintro rfl; cases h
  set m := MphfMap.reset mphf 0 with hm
  have hsome : ∀ e : ℕ × ℕ, (m.bodyIfKey mphf 0 addr e.2).isSome =
      decide (slice mphf (m.data + e.2 + 8) 20 = addr) := fun e => by
    rw [MphfMap.bodyIfKey, haddr, Nat.add_zero]
    split_ifs with hk <;> simp [hk]
  have hbody : ∀ o, m.bodyIfKey mphf 0 addr o = some (m.data + off + 8, len) →
      slice mphf (m.data + o + 8) 20 = addr ∧ o = off := fun o ho => by
    have hkey := hsome (0, o)
    rw [ho, Option.isSome_some] at hkey
    refine ⟨of_decide_eq_true hkey.symm, ?_⟩
    unfold MphfMap.bodyIfKey at ho
    dsimp only at ho
    split_ifs at ho
    have := congrArg Prod.fst (Option.some.inj ho)
    omega
  unfold MphfMap.find at h
  rw [UInt64.ofNat_toNat] at h
  split at h
  · cases h
  unfold entryOffsetForAddr
  rw [if_neg hne, ← hm]
  dsimp only at h ⊢
  split at h
  · rename_i hslot
    obtain ⟨hk, ho⟩ := hbody _ h
    rw [if_pos ⟨hslot, hk⟩, ho]
  rename_i hslot
  rw [if_neg fun hc => hslot hc.1]
  split at h
  · rename_i hcoll
    obtain ⟨e, he, hr⟩ := find?_of_findSome? hsome h
    have hpos : 0 < m.hdr.collisionsSize := Nat.pos_of_ne_zero fun h0 => by
      rw [MphfMap.nCollisions, h0] at hcoll
      exact absurd hcoll (by decide)
    rw [if_pos hpos, he]
    exact (hbody _ hr).2
  · cases h

/-- A region built from the records of accounts with distinct addresses. -/
structure AccountsBuilt (accounts : List DirectAccountInfo) (r : Region) : Prop where
  distinct : (accounts.map (·.addr)).Nodup
  built : MphfBuilder.Built 20 addrKey8Of kMphfAddrMapMagic (accounts.map accountInfoToPreAccountBytes) r

theorem accountMap_eq (accounts : List DirectAccountInfo) (hne : accounts ≠ []) : accountMap accounts =
    (MphfBuilder.ofBodies 20 addrKey8Of (accounts.map accountInfoToPreAccountBytes)).finalize
      kMphfAddrMapMagic {} := by
  rw [accountMap, if_neg hne, MphfBuilder.ofBodies, foldl_map]
  simp only [accountInfoToPreAccountBytes_take]

theorem record_whole {accounts : List DirectAccountInfo} :
    ∀ body ∈ accounts.map accountInfoToPreAccountBytes, 20 ≤ body.length := fun body hbody => by
  obtain ⟨info, -, rfl⟩ := mem_map.mp hbody
  rw [accountInfoToPreAccountBytes_length, accountSize]
  omega

theorem accountMap_built {accounts : List DirectAccountInfo} {mphf : Bytes} (hne : accounts ≠ [])
    (hdistinct : (accounts.map (·.addr)).Nodup) (h : accountMap accounts = some mphf)
    (hsize : mphf.length < 2 ^ 32) :
    ∃ r, mphf = r.bytes kMphfAddrMapMagic ∧ AccountsBuilt accounts r := by
  rw [accountMap_eq accounts hne] at h
  have hnil : [] ∉ accounts.map accountInfoToPreAccountBytes := fun hmem => by
    have := record_whole _ hmem
    rw [length_nil] at this
    omega
  obtain ⟨r, hr, hb⟩ := MphfBuilder.finalize_built hnil (by decide) h hsize
  exact ⟨r, hr, hdistinct, hb⟩

namespace AccountsBuilt

variable {accounts : List DirectAccountInfo} {r : Region} (h : AccountsBuilt accounts r)
include h

/-- One record an address. -/
theorem keyed {info : DirectAccountInfo} (hi : info ∈ accounts) :
    ∀ x ∈ accounts.map accountInfoToPreAccountBytes,
      x.take 20 = (accountInfoToPreAccountBytes info).take 20 →
        x = accountInfoToPreAccountBytes info := by
  intro x hx hkey
  obtain ⟨other, ho, rfl⟩ := mem_map.mp hx
  rw [accountInfoToPreAccountBytes_take, accountInfoToPreAccountBytes_take] at hkey
  rw [inj_on_of_nodup_map h.distinct ho hi (Subtype.ext hkey)]

theorem bodies_nodup : r.bodies.Nodup := by
  refine h.built.perm.nodup_iff.mpr (Nodup.map_on (fun x hx y hy heq => ?_) (Nodup.of_map _ h.distinct))
  have hkey := congrArg (List.take 20) heq
  rw [accountInfoToPreAccountBytes_take, accountInfoToPreAccountBytes_take] at hkey
  exact inj_on_of_nodup_map h.distinct hx hy (Subtype.ext hkey)

/-- A record has one entry. -/
theorem entry_unique {off' : ℕ} {body : Bytes}
    (he : (off, body) ∈ (entryOffsets 8 r.bodies).zip r.bodies)
    (he' : (off', body) ∈ (entryOffsets 8 r.bodies).zip r.bodies) : off = off' := by
  have hnd : (((entryOffsets 8 r.bodies).zip r.bodies).map Prod.snd).Nodup := by
    rw [map_snd_zip (by simp)]
    exact h.bodies_nodup
  exact congrArg Prod.fst (inj_on_of_nodup_map hnd he he' rfl)

/-- An entry holds the record of an account. -/
theorem entry_account {body : Bytes} (he : (off, body) ∈ (entryOffsets 8 r.bodies).zip r.bodies) :
    ∃ info ∈ accounts, body = accountInfoToPreAccountBytes info := by
  obtain ⟨info, hi, rfl⟩ := mem_map.mp (h.built.perm.mem_iff.mp (of_mem_zip he).2)
  exact ⟨info, hi, rfl⟩

/-- **An account is found at its entry**, wherever the region lies. -/
theorem found {buf : Bytes} {base : ℕ} (hs : r.Sections kMphfAddrMapMagic buf base)
    {info : DirectAccountInfo}
    (hi : info ∈ accounts) :
    ∃ off, (off, accountInfoToPreAccountBytes info) ∈ (entryOffsets 8 r.bodies).zip r.bodies ∧
      (r.map kMphfAddrMapMagic base).find buf 0 (addrKey8Of info.addr.val).toNat info.addr.val =
        some ((r.map kMphfAddrMapMagic base).data + off +
          8, (accountInfoToPreAccountBytes info).length) := by
  have := h.built.found hs record_whole (mem_map_of_mem hi) (h.keyed hi)
  rwa [accountInfoToPreAccountBytes_take] at this

/-- **The offset written into the address-hash table** is that of the account's entry. -/
theorem entryOffset_mem {info : DirectAccountInfo} (hi : info ∈ accounts) :
    (entryOffsetForAddr (r.bytes kMphfAddrMapMagic) info.addr.val, accountInfoToPreAccountBytes info) ∈
      (entryOffsets 8 r.bodies).zip r.bodies := by
  have hs := Region.sections (LiesAt.self (r.bytes kMphfAddrMapMagic))
  obtain ⟨off, he, hfind⟩ := h.found hs hi
  rw [← Region.reset_eq hs h.built.fits] at hfind
  rwa [entryOffsetForAddr_of_find info.addr.2 hfind]

/-- The slots of a record can be counted. -/
theorem storage_lt {info : DirectAccountInfo}
    (he : (off, accountInfoToPreAccountBytes info) ∈ (entryOffsets 8 r.bodies).zip r.bodies) :
    info.storage.length < 2 ^ 32 := by
  have h1 := (entryOffsets_bounds (by decide) he).2.2
  have h2 := h.built.fits.dataEnd
  have h3 := le_align8 (8 + (accountInfoToPreAccountBytes info).length)
  rw [← Region.dataSize.eq_1] at h1
  rw [accountInfoToPreAccountBytes_length] at h1 h3
  simp only [entrySize, accountSize, slotSize] at h1 h3
  omega

end AccountsBuilt

/-! ## The address-hash table -/

section Table

variable {keccak256 : Bytes → Bytes32} {accounts : List DirectAccountInfo} {mphf : Bytes}

theorem addrHashTable_perm : (addrHashTable keccak256 accounts mphf).Perm (accounts.map fun info =>
    AddrHashEntry.mk (keccak256 info.addr.val).val info.addr.val
      (entryOffsetForAddr mphf info.addr.val)) :=
  perm_insertionSort _ _

theorem addrHashTable_length : (addrHashTable keccak256 accounts mphf).length = accounts.length := by
  rw [addrHashTable_perm.length_eq, length_map]

theorem mem_addrHashTable {e : AddrHashEntry} : e ∈ addrHashTable keccak256 accounts mphf ↔
    ∃ info ∈ accounts, e =
      ⟨(keccak256 info.addr.val).val, info.addr.val, entryOffsetForAddr mphf info.addr.val⟩ := by
  rw [addrHashTable_perm.mem_iff, mem_map]
  exact ⟨fun ⟨info, hi, he⟩ => ⟨info, hi, he.symm⟩, fun ⟨info, hi, he⟩ => ⟨info, hi, he.symm⟩⟩

/-- Without colliding addresses the hashes ascend strictly. -/
theorem addrHashTable_strict (hdistinct : (accounts.map (·.addr)).Nodup)
    (hinj : Set.InjOn keccak256 {a | ∃ info ∈ accounts, a = info.addr.val}) :
    (addrHashTable keccak256 accounts mphf).Pairwise fun x y => x.addrHash < y.addrHash := by
  have hsorted : (addrHashTable keccak256 accounts mphf).Pairwise fun x y => x.addrHash ≤ y.addrHash :=
    pairwise_insertionSort (fun x y : AddrHashEntry => x.addrHash ≤ y.addrHash) _
  have hne : (addrHashTable keccak256 accounts mphf).Pairwise fun x y => x.addrHash ≠ y.addrHash := by
    refine (addrHashTable_perm.pairwise_iff Ne.symm).mpr (pairwise_map.mpr ?_)
    refine (pairwise_map.mp hdistinct).imp_of_mem fun hx hy hne heq => hne ?_
    exact Subtype.ext (hinj ⟨_, hx, rfl⟩ ⟨_, hy, rfl⟩ (Subtype.ext heq))
  exact hsorted.imp₂ (fun _ _ hle hne => Std.lt_of_le_of_ne hle hne) hne

end Table

/-! ## The layout check -/

/-- The records' region fills its section. -/
theorem mphf_size {s : BlobSections} {r : Region} (hr : s.mphf = r.bytes kMphfAddrMapMagic) :
    s.addrHashesOffset - BlobSections.prestateOffset = (r.bytes kMphfAddrMapMagic).length := by
  have hmod : (r.bytes kMphfAddrMapMagic).length % 8 = 0 := by
    have h1 := r.offsets_le
    have h2 : ∀ bodies : List Bytes, (bodies.map fun body => entrySize body.length).sum % 8 = 0 :=
      fun bodies => by
      induction bodies with
      | nil => rfl
      | cons x bodies ih =>
        rw [map_cons, sum_cons, Nat.add_mod, ih, entrySize, align8_mod]
    have h3 := h2 r.bodies
    rw [Region.bytes_length, Region.dataSize]
    omega
  rw [BlobSections.addrHashesOffset, hr, align8_of_mod hmod]
  omega

/-- `hash_key8` as a short key. -/
def hashKey8Of (hash : Bytes) : UInt64 := UInt64.ofNat (hashKey8 hash)

/-- The bodies of a code store: each code behind its hash. -/
def codeBodies (keccak256 : Bytes → Bytes32) (codes : List Bytes) : List Bytes :=
  codes.map fun code => (keccak256 code).val ++ code

/-- **A code store of the codes**: a region that a `MphfBuilder<32>` made, under whatever limits, or
nothing if there are none. -/
def CodeStoreOf (keccak256 : Bytes → Bytes32) (codes : List Bytes) (codeStore : Bytes) : Prop :=
  codes = [] ∧ codeStore = [] ∨ ∃ limits,
    (MphfBuilder.ofBodies 32 hashKey8Of (codeBodies keccak256 codes)).finalize kMphfCodeStoreMagic
    limits = some codeStore

theorem code_whole {keccak256 : Bytes → Bytes32} {codes : List Bytes} :
    ∀ body ∈ codeBodies keccak256 codes, 32 ≤ body.length := fun body hbody => by
  obtain ⟨code, -, rfl⟩ := mem_map.mp hbody
  rw [length_append, (keccak256 code).2]
  omega

/-- **The sections of a blob built from accounts**, in the order of their addresses, and codes. -/
structure BlobBuilt (keccak256 : Bytes → Bytes32) (accounts : List DirectAccountInfo)
    (codes : List Bytes) (s : BlobSections) : Prop where
  size : s.bytes.length < 2 ^ 32
  table : s.addrHashes = addrHashTable keccak256 accounts s.mphf
  map : accounts ≠ [] → ∃ r, s.mphf = r.bytes kMphfAddrMapMagic ∧ AccountsBuilt accounts r
  code : codes = [] ∧ s.codeStore = [] ∨ ∃ r, s.codeStore = r.bytes kMphfCodeStoreMagic ∧
    MphfBuilder.Built 32 hashKey8Of kMphfCodeStoreMagic (codeBodies keccak256 codes) r

namespace BlobBuilt

variable {keccak256 : Bytes → Bytes32} {accounts : List DirectAccountInfo} {codes : List Bytes}
  {s : BlobSections}
  (h : BlobBuilt keccak256 accounts codes s)
include h

theorem entries : s.Entries := fun e he => by
  rw [h.table] at he
  obtain ⟨info, -, rfl⟩ := mem_addrHashTable.mp he
  exact ⟨(keccak256 info.addr.val).2, info.addr.2⟩

theorem addrHashes_length :
    s.addrHashes.length = accounts.length := by rw [h.table, addrHashTable_length]

theorem read_eq : PreStateMeta.read s.bytes = s.metaOf := BlobSections.read_bytes h.entries h.size

theorem length_eq : s.bytes.length = s.codeStoreOffset + align8 s.codeStore.length :=
  BlobSections.bytes_length h.entries

theorem accountSections {r : Region} (hr : s.mphf = r.bytes kMphfAddrMapMagic) :
    r.Sections kMphfAddrMapMagic s.bytes BlobSections.prestateOffset :=
  Region.sections (hr ▸ (BlobSections.placed h.entries).mphf)

/-- A record lies at its entry. -/
theorem record_liesAt {r : Region} (hr : s.mphf = r.bytes kMphfAddrMapMagic)
    (hb : AccountsBuilt accounts r) {info : DirectAccountInfo}
    (he : (off, accountInfoToPreAccountBytes info) ∈ (entryOffsets 8 r.bodies).zip r.bodies) :
    (r.map kMphfAddrMapMagic BlobSections.prestateOffset).entryLen s.bytes off =
      accountSize + slotSize * info.storage.length ∧
    LiesAt s.bytes ((r.map kMphfAddrMapMagic BlobSections.prestateOffset).data + off + 8)
      (accountInfoToPreAccountBytes info) := by
  rw [← accountInfoToPreAccountBytes_length]
  exact Region.entry_eq (h.accountSections hr) hb.built.fits he

/-- The offsets the map visits are those of the entries. -/
theorem mem_offsets {r : Region} (hr : s.mphf = r.bytes kMphfAddrMapMagic)
    (hb : AccountsBuilt accounts r) :
    off ∈ (r.map kMphfAddrMapMagic BlobSections.prestateOffset).forEachOffset s.bytes ↔
      ∃ info ∈ accounts,
        (off, accountInfoToPreAccountBytes info) ∈ (entryOffsets 8 r.bodies).zip r.bodies := by
  rw [(hb.built.offsets_perm (h.accountSections hr)).mem_iff]
  constructor
  · intro hoff
    obtain ⟨body, -, he⟩ := mem_entryOffsets hoff
    obtain ⟨info, hi, rfl⟩ := hb.entry_account he
    exact ⟨info, hi, he⟩
  · rintro ⟨info, -, he⟩
    exact (of_mem_zip he).1

theorem validateAddrMap_ok : validateAddrMap s.bytes s.metaOf = .ok () := by
  rw [validateAddrMap]
  split_ifs with hn
  · have hne : accounts ≠ [] := ne_nil_of_length_pos (h.addrHashes_length ▸ hn)
    obtain ⟨r, hr, hb⟩ := h.map hne
    have hs := h.accountSections hr
    have hlies := hr ▸ (BlobSections.placed h.entries).mphf
    have hreset := Region.reset_eq hs hb.built.fits
    have hsize := mphf_size hr
    have hpos : 0 < (r.bytes kMphfAddrMapMagic).length := by
      rw [Region.bytes_length, Region.dataSize]
      omega
    have hvalid :=
      Region.validateMphf_ok hlies hb.built.fits hb.built.indexed (by decide) hb.built.buckets
      (hb.built.bodies_whole record_whole)
    simp only [bind_eq_ok, rejectIf_eq_ok]
    refine ⟨(), ?_, (), ?_, ?_⟩
    · show ¬ s.addrHashesOffset ≤ BlobSections.prestateOffset
      omega
    · show validateMphf 20 0 s.bytes BlobSections.prestateOffset
        (s.addrHashesOffset - BlobSections.prestateOffset) kMphfAddrMapMagic = .ok ()
      rw [hsize]
      exact hvalid
    · show ¬ (MphfMap.reset s.bytes BlobSections.prestateOffset).hdr.nKeys = 0
      rw [hreset]
      intro hk
      have hbodies := hb.built.keyless (length_eq_zero_iff.mp hk)
      have := hb.built.perm.length_eq
      rw [hbodies, length_map, length_nil] at this
      exact hne (length_eq_zero_iff.mp this.symm)
  · rfl

theorem validateCodeStore_ok :
    validateMphf 32 0 s.bytes s.codeStoreOffset s.codeStore.length kMphfCodeStoreMagic = .ok () := by
  rcases h.code with ⟨-, hnil⟩ | ⟨r, hr, hb⟩
  · rw [hnil]
    rfl
  · have hlies := hr ▸ (BlobSections.placed h.entries).codeStore
    rw [hr]
    exact Region.validateMphf_ok hlies hb.fits hb.indexed s.offsets_le.2.2.2.2.2.2 hb.buckets
      (hb.bodies_whole code_whole)

/-- The records fit the bodies that hold them. -/
theorem checkEntry_ok {r : Region} (hr : s.mphf = r.bytes kMphfAddrMapMagic)
    (hb : AccountsBuilt accounts r) {info : DirectAccountInfo}
    (he : (off, accountInfoToPreAccountBytes info) ∈ (entryOffsets 8 r.bodies).zip r.bodies) :
    checkEntry s.bytes (r.map kMphfAddrMapMagic BlobSections.prestateOffset) off = .ok () := by
  obtain ⟨hlen, hlies⟩ := h.record_liesAt hr hb he
  have hcount := (recordOf_of_liesAt hlies (hb.storage_lt he)).1.slotCount
  have h8 := (entryOffsets_bounds (by decide) he).1
  simp only [checkEntry, bind_eq_ok, rejectIf_eq_ok, hlen, hcount]
  exact ⟨(), by omega, (), by omega, by rw [Nat.mul_comm slotSize]; omega⟩

/-- **The blob passes the layout check.** -/
theorem valid {addr : ℕ} (haddr : addr % 8 = 0) : validatePrestateLayout addr s.bytes = .ok () := by
  have hlen := h.length_eq
  obtain ⟨h0, h1, h2, h3, h4, h5, h6⟩ := s.offsets_le
  have hmap : validateAddrMap s.bytes s.metaOf = .ok () := h.validateAddrMap_ok
  simp only [validatePrestateLayout, h.read_eq, bind_eq_ok, rejectIf_eq_ok]
  refine ⟨(), ?_, (), by omega, (), fun hne => hne rfl, (), fun hne => hne rfl, (), ?_, (), ?_,
    (), hmap, (), h.validateCodeStore_ok, (), ?_, ?_⟩
  · rw [preStateMetaSize]
    omega
  · simp only [BlobSections.metaOf, boundTyped, boundsWithinRegion, addrHashEntrySize,
      blockHashEntrySize] at *
    omega
  · simp only [BlobSections.metaOf, boundTyped, boundsWithinRegion, addrHashEntrySize,
      blockHashEntrySize] at *
    omega
  · rw [not_not]
    have hpw : ∀ a b c d : ℕ, b ≤ c → rangesOverlap (a, b) (c, d) = false := fun a b c d hle => by
      simp only [rangesOverlap, decide_eq_false_iff_not]
      omega
    obtain ⟨stop, hsections, hstop⟩ : ∃ stop, s.metaOf.sections = [(0, preStateMetaSize),
        (BlobSections.prestateOffset, stop),
        (s.addrHashesOffset, s.addrHashesOffset + s.addrHashes.length * addrHashEntrySize),
        (s.blockHashesOffset, s.blockHashesOffset + s.blockHashes.length * blockHashEntrySize),
        (s.codeStoreOffset, s.codeStoreOffset + s.codeStore.length)] ∧ stop ≤ s.addrHashesOffset := by
      refine ⟨_, rfl, ?_⟩
      split
      · exact le_rfl
      · omega
    rw [Nat.mul_comm] at h3 h5
    simp only [hsections, pairwise_cons, mem_cons, not_mem_nil, or_false, forall_eq_or_imp, forall_eq,
      preStateMetaSize]
    refine ⟨⟨?_, ?_, ?_, ?_⟩, ⟨?_, ?_, ?_⟩, ⟨?_, ?_⟩, ?_, by simp⟩ <;> exact hpw _ _ _ _ (by omega)
  · split_ifs with hn
    · have hne : accounts ≠ [] := ne_nil_of_length_pos (h.addrHashes_length ▸ hn)
      obtain ⟨r, hr, hb⟩ := h.map hne
      have hreset := Region.reset_eq (h.accountSections hr) hb.built.fits
      show (MphfMap.forEachOffset s.bytes (MphfMap.reset s.bytes BlobSections.prestateOffset)).forM _ = _
      rw [forM_eq_ok]
      intro off hoff
      show checkEntry s.bytes (MphfMap.reset s.bytes BlobSections.prestateOffset) off = .ok ()
      rw [hreset] at hoff ⊢
      obtain ⟨info, -, he⟩ := (h.mem_offsets hr hb).mp hoff
      exact h.checkEntry_ok hr hb he
    · rfl

end BlobBuilt

end Zilkworm.Witness
