/-
# An honest blob passes `sanitize`

No pass of `sanitize` rejects what the builder wrote.  A record passes when its code is in
the store and its slots ascend (`Passable`), and stays passable while other records are
handled; an entry of the address-hash table passes when it names a record with its address;
and every mark the first walk sets is cleared by the second.
-/
import Zilkworm.Witness.BlobLayout
import Zilkworm.Witness.CodeBinding

namespace Zilkworm.Witness

open List Lib Rlp Zilkworm.Types

/-! ## One record -/

/-- **A record no check of the walk rejects**: without code or with code the store holds at its
length, and with ascending slot keys. -/
structure Passable (code : Option MphfMap) (b₀ b : Bytes) (p : ℕ) : Prop where
  code : 0 < accCodeStoreLen b p → ∃ m ∈ code, ∃ body len,
    m.find b₀ 0 (hashKey8 (accCodeHash b p)) (accCodeHash b p) = some (body, len) ∧
    kPayloadOffset ≤ len ∧ accCodeStoreLen b p ≤ len - kPayloadOffset
  ascending : ∀ s, s + 1 < accSlotCount b p → slotKey b (slotPos p s) < slotKey b (slotPos p (s + 1))

section Walk

variable {code : Option MphfMap} {b₀ b b' : Bytes} {p : ℕ}

/-- Writes elsewhere leave a record passable. -/
theorem Passable.frame (h : Passable code b₀ b p) {rs : List (ℕ × ℕ)} (hf : Frame rs b b')
    (hr : ∀ r ∈ rs, Apart p (recordSize b p) r.1 r.2) : Passable code b₀ b' p := by
  have hsame := sameRecord_of_frame hf fun r hmem => .inl (hr r hmem)
  have hlen : accCodeStoreLen b' p = accCodeStoreLen b p := hf.u32At_eq fun r hmem => by
    have := hr r hmem
    simp only [recordSize, accountSize] at this
    unfold Apart at this ⊢
    omega
  refine ⟨?_, fun s hs => ?_⟩
  · rw [hlen, hsame.codeHash]
    exact h.code
  · rw [hsame.slotCount] at hs
    rw [(hsame.slots s (by omega)).1, (hsame.slots (s + 1) hs).1]
    exact h.ascending s hs

theorem bindCode_ok (h : Passable code b₀ b p) (hp : p + accountSize ≤ b.length)
    (hc : SameCode code b₀ b) :
    ∃ b', bindCode code b p = .ok b' := by
  simp only [accountSize] at hp
  unfold bindCode
  split
  · rename_i hpos
    obtain ⟨m, hm, body, len, hfind, hge, hle⟩ := h.code hpos
    have hkey : (accCodeHash b p).length = 32 := slice_length_of_le (by omega)
    rw [Option.mem_def] at hm
    rw [← hc m hm _ hkey] at hfind
    rw [hm, Option.bind_some, hfind, Option.map_some]
    dsimp only
    rw [show rejectIf (len < kPayloadOffset ∨ len - kPayloadOffset < accCodeStoreLen b p)
      "sanitize: code_len exceeds code store entry size" = .ok () from rejectIf_eq_ok.mpr (by omega)]
    exact ⟨_, rfl⟩
  · exact ⟨_, rfl⟩

/-- Ascending keys pass the slot loop. -/
theorem copySlots_ok {n s : ℕ} (hb : slotPos p (s + n) ≤ b.length)
    (hasc : ∀ j, s ≤ j → j < s + n → 0 < j → slotKey b (slotPos p (j - 1)) < slotKey b (slotPos p j)) :
    ∃ b', copySlots p n s b = .ok b' := by
  induction n generalizing s b with
  | zero => exact ⟨b, rfl⟩
  | succ n ih =>
    have hend : slotPos p (s + 1) ≤ slotPos p (s + (n + 1)) := by simp only [slotPos, slotSize]; omega
    obtain ⟨-, hf, hkeep⟩ := slotWrite_spec (hend.trans hb)
    rw [slotPos, slotSize, accountSize] at hb
    obtain ⟨b', hb'⟩ := @ih (writeAt b (slotPos p s + 64) (slotInitial b (slotPos p s))) (s + 1)
      (by rw [hf.1]; simp only [slotPos, slotSize, accountSize]; omega)
      (fun j h1 h2 h3 => by rw [(hkeep _).1, (hkeep _).1]; exact hasc j (by omega) (by omega) h3)
    refine ⟨b', ?_⟩
    simp only [copySlots, bind_eq_ok, rejectIf_eq_ok]
    exact ⟨(), fun hn => hn.2 (hasc s le_rfl (by omega) hn.1), hb'⟩

/-- **A passable record passes.** -/
theorem handleAccountBody_ok (h : Passable code b₀ b p) (hp : p + recordSize b p ≤ b.length)
    (hc : SameCode code b₀ b) : ∃ b', handleAccountBody code b p = .ok b' := by
  have hacc : p + accountSize ≤ b.length := by simp only [recordSize] at hp; omega
  obtain ⟨b₁, hb₁⟩ := bindCode_ok h hacc hc
  obtain ⟨f, hcount, hslots⟩ := beforeSlots_spec hb₁ hacc hc
  have hkey : ∀ j, slotKey (rlpIntoCache (resetFlags b₁ p) p) (slotPos p j) = slotKey b (slotPos p j) :=
    fun j => hslots j 0
  obtain ⟨b', hb'⟩ := @copySlots_ok (rlpIntoCache (resetFlags b₁ p) p) p (accSlotCount b p) 0
    (by rw [f.1]; simpa [slotPos, recordSize, Nat.add_assoc] using hp)
    (fun j _ h2 h3 => by
      have := h.ascending (j - 1) (by omega)
      rwa [Nat.sub_add_cancel h3, ← hkey, ← hkey] at this)
  refine ⟨b', ?_⟩
  simp only [handleAccountBody, bind_eq_ok]
  exact ⟨b₁, hb₁, by rw [hcount]; exact hb'⟩

/-- **The walk over passable records passes.** -/
theorem accountWalk_ok {m : MphfMap} {L : ℕ → ℕ} {offs : List ℕ} (hin : RecordRooms code b₀ m L offs b)
    (hpass : ∀ o ∈ offs, Passable code b₀ b (m.data + o + 8)) :
    ∃ b', accountWalk code m offs b = .ok b' := by
  induction offs generalizing b with
  | nil => exact ⟨b, rfl⟩
  | cons o os ih =>
    obtain ⟨hsize, hend⟩ := hin.inside o mem_cons_self
    have hsame := hin.code b ((Frame.refl b).mono (by simp))
    obtain ⟨b₁, h₁⟩ := handleAccountBody_ok (hpass o mem_cons_self) (by omega) hsame
    obtain ⟨f₁, hrest, hoff⟩ := hin.next (handleAccountBody_spec h₁ (by omega) hsame).1
    obtain ⟨b', hb'⟩ := ih hrest fun x hx => (hpass x (mem_cons_of_mem o hx)).frame f₁ (hoff x hx)
    refine ⟨b', ?_⟩
    simp only [accountWalk, bind_eq_ok]
    exact ⟨b₁, h₁, hb'⟩

end Walk

/-! ## The address-hash table -/

section Table

variable {keccak256 : Bytes → Bytes32} {pm : PreStateMeta} {data dataSize : ℕ}

/-- **The walk over a table of accepted entries passes**, if the entries ascend and no mark falls on
an address. -/
theorem addrHashWalk_ok
    {n i : ℕ} {prev : Option Bytes} {b : Bytes} (hD : data + dataSize ≤ pm.addrHashesOffset)
    (hb : data + dataSize ≤ b.length)
    (hacc : ∀ j, i ≤ j → j < i + n → EntryAccepted keccak256 data dataSize (addrHashEntry b pm j) b)
    (hap : ∀ j k, i ≤ j → j < i + n → i ≤ k → k < i + n →
      Apart (data + (addrHashEntry b pm j).entryOffset +
        8) 20 (data + (addrHashEntry b pm k).entryOffset + 8 + 23) 1)
    (hasc : ∀ j, i ≤ j → j + 1 < i +
    n → (addrHashEntry b pm j).addrHash < (addrHashEntry b pm (j + 1)).addrHash)
    (hprev : 0 < n → ∀ h ∈ prev, h < (addrHashEntry b pm i).addrHash) :
    ∃ b', addrHashWalk keccak256 pm data dataSize n i prev b = .ok b' := by
  induction n generalizing i prev b with
  | zero => exact ⟨b, rfl⟩
  | succ n ih =>
    obtain ⟨hhash, hbound, haddr⟩ := hacc i le_rfl (by omega)
    obtain ⟨hf, hentry⟩ := mark_spec hD hb hbound
    set b₁ := writeAt b (data + (addrHashEntry b pm i).entryOffset + 8 + 23) [0] with hb₁
    obtain ⟨b', hb'⟩ := @ih (i + 1) (some (addrHashEntry b pm i).addrHash) b₁ (by rw [hf.1]; exact hb)
      (fun j h1 h2 => by
        obtain ⟨hh, hbd, ha⟩ := hacc j (by omega) (by omega)
        rw [hentry]
        refine ⟨hh, hbd, Eq.trans (hf.slice_eq fun r hr => ?_) ha⟩
        obtain rfl := mem_singleton.mp hr
        exact hap j i (by omega) (by omega) le_rfl (by omega))
      (fun j k h1 h2 h3 h4 => by rw [hentry, hentry]; exact hap j k (by omega) (by omega) (by omega) (by omega))
      (fun j h1 h2 => by rw [hentry, hentry]; exact hasc j (by omega) (by omega))
      (fun hn x hx => by
        obtain rfl := Option.some.inj hx
        rw [hentry]
        exact hasc i le_rfl (by omega))
    refine ⟨b', ?_⟩
    simp only [addrHashWalk, bind_eq_ok, rejectIf_eq_ok]
    refine ⟨(), ?_, (), fun hne => hne hhash, (), by omega, (), fun hne => hne haddr, hb'⟩
    rintro ⟨x, hx, hn⟩
    exact hn (hprev (by omega) x hx)

/-- **Every mark the table names is cleared.** -/
theorem addrHashWalk_cleared {n i : ℕ} {prev : Option Bytes} {b b' : Bytes}
    (h : addrHashWalk keccak256 pm data dataSize n i prev b = .ok b')
    (hD : data + dataSize ≤ pm.addrHashesOffset)
    (hb : data + dataSize ≤ b.length) {j : ℕ} (h1 : i ≤ j) (h2 : j < i + n) :
    byteAt b' (data + (addrHashEntry b pm j).entryOffset + 8 + 23) = 0 := by
  induction n generalizing i prev b with
  | zero => omega
  | succ n ih =>
    simp only [addrHashWalk, bind_eq_ok, rejectIf_eq_ok, exists_const] at h
    obtain ⟨-, -, hbound, -, h⟩ := h
    obtain ⟨hf, hentry⟩ := mark_spec hD hb (Nat.not_lt.mp hbound)
    simp only [accountSize] at hbound
    rcases Nat.eq_or_lt_of_le h1 with rfl | hlt
    · -- what later marks change becomes zero too
      rcases addrHashWalk_byteAt h (by rw [hf.1]; exact hb)
        (data + (addrHashEntry b pm i).entryOffset + 8 + 23)
        with heq | heq
      · rw [heq]
        exact byteAt_writeAt_self (by omega)
      · exact heq
    · have := ih h (by rw [hf.1]; exact hb) hlt (by omega)
      rwa [hentry] at this

end Table

/-! ## The blob of honest input -/

/-- **What the builder is to be given**: distinct addresses and slot keys, and the code of every
account that has one; no two of the addresses, and no two of the codes, have one hash. -/
structure Honest (keccak256 : Bytes → Bytes32) (accounts : List DirectAccountInfo)
    (codes : List Bytes) : Prop where
  addrs : (accounts.map (·.addr)).Nodup
  slots : ∀ info ∈ accounts, (info.storage.map Prod.fst).Nodup
  code : ∀ info ∈ accounts, info.codeStoreLen ≠ 0 →
    ∃ c ∈ codes, keccak256 c = info.codeHash ∧ info.codeStoreLen.toNat ≤ c.length
  addrHashes : Set.InjOn keccak256 {a | ∃ info ∈ accounts, a = info.addr.val}
  codeHashes : Set.InjOn keccak256 {c | c ∈ codes ∨ c = []}

theorem hashKey8Of_toNat (hash : Bytes) : (hashKey8Of hash).toNat = hashKey8 hash :=
  UInt64.toNat_ofNat_of_lt (u64At_lt hash 0)

/-- Distinct slot keys ascend once sorted. -/
theorem sortedStorage_strict {storage : List (Bytes32 × Bytes32)} (h : (storage.map Prod.fst).Nodup) :
    (sortedStorage storage).Pairwise fun x y => x.1.val < y.1.val := by
  have hsorted : (sortedStorage storage).Pairwise fun x y => x.1.val ≤ y.1.val :=
    pairwise_insertionSort (fun x y : Bytes32 × Bytes32 => x.1.val ≤ y.1.val) _
  have hne : (sortedStorage storage).Pairwise fun x y => x.1.val ≠ y.1.val := by
    refine ((sortedStorage_perm storage).pairwise_iff Ne.symm).mpr ?_
    exact (pairwise_map.mp h).imp fun hne heq => hne (Subtype.ext heq)
  exact hsorted.imp₂ (fun _ _ hle hne => Std.lt_of_le_of_ne hle hne) hne

namespace BlobBuilt

variable {keccak256 : Bytes → Bytes32} {accounts : List DirectAccountInfo} {codes : List Bytes}
  {s : BlobSections}
  {P : PreState} {m : MphfMap} (h : BlobBuilt keccak256 accounts codes s) (hP : P.bytes = s.bytes)
include h hP

theorem stateMeta_eq : P.stateMeta = s.metaOf := by rw [PreState.stateMeta, hP, h.read_eq]

theorem preStateMap_nil (hnil : accounts = []) : P.preStateMap = none := by
  have hlen := h.addrHashes_length
  rw [hnil, length_nil] at hlen
  rw [PreState.preStateMap, h.stateMeta_eq hP, if_neg]
  exact Nat.not_lt.mpr hlen.le

/-- The account map of the blob. -/
theorem preStateMap_eq (hne : accounts ≠ []) : ∃ r, s.mphf = r.bytes kMphfAddrMapMagic ∧
    AccountsBuilt accounts r ∧
    P.preStateMap = some (r.map kMphfAddrMapMagic BlobSections.prestateOffset) := by
  obtain ⟨r, hr, hb⟩ := h.map hne
  refine ⟨r, hr, hb, ?_⟩
  have hpos : 0 < s.addrHashes.length := h.addrHashes_length ▸ length_pos_iff.mpr hne
  rw [PreState.preStateMap, h.stateMeta_eq hP, if_pos (show 0 < s.metaOf.nAccounts from hpos), hP]
  exact congrArg some (Region.reset_eq (h.accountSections hr) hb.built.fits)

/-- The code store of the blob. -/
theorem codeStoreMap_eq : codes = [] ∧ P.codeStoreMap = none ∨ ∃ r,
    MphfBuilder.Built 32 hashKey8Of kMphfCodeStoreMagic (codeBodies keccak256 codes) r ∧
    r.Sections kMphfCodeStoreMagic P.bytes s.codeStoreOffset ∧
    mphfEntriesTile P.bytes (some (r.map kMphfCodeStoreMagic s.codeStoreOffset)) = true ∧
    P.codeStoreMap = some (r.map kMphfCodeStoreMagic s.codeStoreOffset) := by
  rcases h.code with ⟨hcodes, hnil⟩ | ⟨r, hr, hb⟩
  · refine .inl ⟨hcodes, ?_⟩
    rw [PreState.codeStoreMap, h.stateMeta_eq hP, if_neg]
    show ¬ 0 < s.codeStore.length
    rw [hnil]
    decide
  · have hlies : LiesAt P.bytes s.codeStoreOffset (r.bytes kMphfCodeStoreMagic) :=
      hP ▸ hr ▸ (BlobSections.placed h.entries).codeStore
    have hs := Region.sections hlies
    refine .inr ⟨r, hb, hs, Region.mphfEntriesTile_ok hlies hb.fits hb.indexed, ?_⟩
    have hpos : 0 < s.codeStore.length := by
      rw [hr, Region.bytes_length, Region.dataSize]
      omega
    rw [PreState.codeStoreMap, h.stateMeta_eq hP, if_pos (show 0 < s.metaOf.codeStoreSize from hpos)]
    exact congrArg some (Region.reset_eq hs hb.fits)

/-- Every entry of the code store holds a code behind its hash. -/
theorem code_entry (hm : m ∈ P.codeStoreMap) {off : ℕ} (hoff : off ∈ m.forEachOffset P.bytes) :
    ∃ c ∈ codes, m.payload P.bytes off = c ∧ m.key P.bytes off = (keccak256 c).val := by
  rcases h.codeStoreMap_eq hP with ⟨-, hnone⟩ | ⟨r, hb, hs, -, hsome⟩
  · rw [hnone] at hm
    cases hm
  · obtain rfl := Option.some.inj (hsome.symm.trans hm)
    obtain ⟨body, hmem, he⟩ := mem_entryOffsets ((hb.offsets_perm hs).mem_iff.mp hoff)
    obtain ⟨c, hc, rfl⟩ := mem_map.mp (hb.perm.mem_iff.mp hmem)
    obtain ⟨hlen, hbody⟩ := Region.entry_eq hs hb.fits he
    obtain ⟨hkey, hpay⟩ := liesAt_append.mp hbody
    rw [(keccak256 c).2] at hpay
    refine ⟨c, hc, ?_, hkey.slice_of_length (keccak256 c).2⟩
    rw [MphfMap.payload, hlen]
    exact hpay.slice_of_length (by rw [length_append, (keccak256 c).2, kPayloadOffset]; omega)

/-- **A stored code is found under its hash.** -/
theorem code_found (hon : Honest keccak256 accounts codes) {c : Bytes} (hc : c ∈ codes) :
    ∃ m ∈ P.codeStoreMap, ∃ off ∈ m.forEachOffset P.bytes,
      m.find P.bytes 0 (hashKey8 (keccak256 c).val) (keccak256 c).val =
        some (m.data + off + 8, 32 + c.length) ∧
      m.key P.bytes off = (keccak256 c).val := by
  rcases h.codeStoreMap_eq hP with ⟨hnil, -⟩ | ⟨r, hb, hs, -, hsome⟩
  · rw [hnil] at hc
    cases hc
  · have htake : ∀ x : Bytes, ((keccak256 x).val ++ x).take 32 = (keccak256 x).val := fun x => by
      rw [take_append_of_le_length (keccak256 x).2.ge, take_of_length_le (keccak256 x).2.le]
    obtain ⟨off, he, hfind⟩ := hb.found hs code_whole (mem_map_of_mem hc) fun x hx hkey => by
      obtain ⟨d, hd, rfl⟩ := mem_map.mp hx
      rw [htake, htake] at hkey
      rw [hon.codeHashes (.inl hd) (.inl hc) (Subtype.ext hkey)]
    rw [htake, hashKey8Of_toNat, length_append, (keccak256 c).2] at hfind
    have hkey := (liesAt_append.mp (Region.entry_eq hs hb.fits he).2).1
    exact ⟨_, hsome, off, (hb.offsets_perm hs).mem_iff.mpr (of_mem_zip he).1, hfind,
      hkey.slice_of_length (keccak256 c).2⟩

/-- Every entry of the account map holds the record of an account. -/
theorem record (hm : m ∈ P.preStateMap) {off : ℕ} (hoff : off ∈ m.forEachOffset P.bytes) :
    ∃ info ∈ accounts, RecordOf info P.bytes (m.data + off + 8) ∧
      accCodeStoreLen P.bytes (m.data + off + 8) = info.codeStoreLen.toNat := by
  have hne : accounts ≠ [] := by
    rintro hnil
    rw [h.preStateMap_nil hP hnil] at hm
    cases hm
  obtain ⟨r, hr, hb, hsome⟩ := h.preStateMap_eq hP hne
  obtain rfl := Option.some.inj (hsome.symm.trans hm)
  rw [hP] at hoff ⊢
  obtain ⟨info, hi, he⟩ := (h.mem_offsets hr hb).mp hoff
  obtain ⟨hrec, hlen⟩ := recordOf_of_liesAt (h.record_liesAt hr hb he).2 (hb.storage_lt he)
  exact ⟨info, hi, hrec, hlen⟩

/-- Every record of an honest blob passes the walk. -/
theorem passable (hon : Honest keccak256 accounts codes) (hm : m ∈ P.preStateMap) {off : ℕ}
    (hoff : off ∈ m.forEachOffset P.bytes) :
    Passable P.codeStoreMap P.bytes P.bytes (m.data + off + 8) := by
  obtain ⟨info, hi, hrec, hlen⟩ := h.record hP hm hoff
  refine ⟨fun hpos => ?_, fun i hi' => ?_⟩
  · have hne : info.codeStoreLen ≠ 0 := fun h0 => by
      rw [hlen, h0] at hpos
      exact absurd hpos (by decide)
    obtain ⟨c, hc, hhash, hle⟩ := hon.code info hi hne
    obtain ⟨cm, hcm, e, -, hfind, -⟩ := h.code_found hP hon hc
    rw [hrec.codeHash, ← hhash, hlen]
    exact ⟨cm, hcm, _, _, hfind, by rw [kPayloadOffset]; omega, by rw [kPayloadOffset]; omega⟩
  · rw [hrec.slotCount, ← (sortedStorage_perm info.storage).length_eq] at hi'
    have hstrict :=
      pairwise_iff_getElem.mp (sortedStorage_strict (hon.slots info hi)) i (i + 1) (by omega) hi'
      (by omega)
    rw [(hrec.slots (getElem?_eq_getElem (by omega))).1, (hrec.slots (getElem?_eq_getElem hi')).1]
    exact hstrict

/-- An entry of the address-hash table as it is read. -/
theorem addrHashEntry_eq {i : ℕ} {e : AddrHashEntry} (hi : s.addrHashes[i]? = some e)
    (hoff : e.entryOffset < 2 ^ 32) :
    addrHashEntry P.bytes P.stateMeta i = e := by
  obtain ⟨h32, h20⟩ := h.entries e (mem_of_getElem? hi)
  have hrow := (BlobSections.placed h.entries).addrHashes.row_of_mem h.entries.bytes_length hi
  obtain ⟨hrow, hword⟩ := liesAt_append.mp hrow
  obtain ⟨hhash, haddr⟩ := liesAt_append.mp hrow
  rw [length_append, h32, h20] at hword
  rw [h32] at haddr
  have h1 := hhash.slice_of_length h32
  have h2 := haddr.slice_of_length h20
  have h3 := hword.u32At_eq hoff
  rw [h.stateMeta_eq hP, hP]
  show (⟨slice s.bytes (s.addrHashesOffset + addrHashEntrySize * i) 32,
    slice s.bytes (s.addrHashesOffset + addrHashEntrySize * i + 32) 20,
    u32At s.bytes (s.addrHashesOffset + addrHashEntrySize * i + 52)⟩ : AddrHashEntry) = e
  rw [h1, h2, h3]

/-- **Each entry of the table names the record of its account.** -/
theorem entry_named (hm : m ∈ P.preStateMap) {i : ℕ} (hi : i < P.stateMeta.nAccounts) :
    ∃ info ∈ accounts, ∃ off ∈ m.forEachOffset P.bytes,
      s.addrHashes[i]? = some ⟨(keccak256 info.addr.val).val, info.addr.val, off⟩ ∧
      addrHashEntry P.bytes P.stateMeta i = ⟨(keccak256 info.addr.val).val, info.addr.val, off⟩ ∧
      RecordOf info P.bytes (m.data + off + 8) := by
  rw [h.stateMeta_eq hP] at hi
  replace hi : i < s.addrHashes.length := hi
  have hne : accounts ≠ [] := ne_nil_of_length_pos (h.addrHashes_length ▸ Nat.zero_lt_of_lt hi)
  obtain ⟨r, hr, hb, hsome⟩ := h.preStateMap_eq hP hne
  obtain rfl := Option.some.inj (hsome.symm.trans hm)
  obtain ⟨e, hget⟩ : ∃ e, s.addrHashes[i]? = some e := ⟨_, getElem?_eq_getElem hi⟩
  have hmem := mem_of_getElem? hget
  rw [h.table] at hmem
  obtain ⟨info, hinfo, rfl⟩ := mem_addrHashTable.mp hmem
  rw [hr] at hget
  have he := hb.entryOffset_mem hinfo
  have hlt : entryOffsetForAddr (r.bytes kMphfAddrMapMagic) info.addr.val < 2 ^ 32 := by
    have h1 := (entryOffsets_bounds (by decide) he).2.2
    have h2 := hb.built.fits.dataEnd
    rw [← Region.dataSize.eq_1] at h1
    omega
  refine ⟨info, hinfo, _, ?_, hget, h.addrHashEntry_eq hP hget hlt, ?_⟩
  · rw [hP]
    exact (h.mem_offsets hr hb).mpr ⟨info, hinfo, he⟩
  · rw [hP]
    exact (recordOf_of_liesAt (h.record_liesAt hr hb he).2 (hb.storage_lt he)).1

/-- Each record is named. -/
theorem entry_covers (hm : m ∈ P.preStateMap) {off : ℕ} (hoff : off ∈ m.forEachOffset P.bytes) :
    ∃ i < P.stateMeta.nAccounts, (addrHashEntry P.bytes P.stateMeta i).entryOffset = off := by
  have hne : accounts ≠ [] := by
    rintro hnil
    rw [h.preStateMap_nil hP hnil] at hm
    cases hm
  obtain ⟨r, hr, hb, hsome⟩ := h.preStateMap_eq hP hne
  obtain rfl := Option.some.inj (hsome.symm.trans hm)
  rw [hP] at hoff
  obtain ⟨info, hi, he⟩ := (h.mem_offsets hr hb).mp hoff
  have hmem : (⟨(keccak256 info.addr.val).val, info.addr.val,
      entryOffsetForAddr s.mphf info.addr.val⟩ : AddrHashEntry) ∈
      s.addrHashes := h.table ▸ mem_addrHashTable.mpr ⟨info, hi, rfl⟩
  obtain ⟨i, hlt, hget⟩ := getElem_of_mem hmem
  have hlt' : i < P.stateMeta.nAccounts := by rw [h.stateMeta_eq hP]; exact hlt
  refine ⟨i, hlt', ?_⟩
  obtain ⟨info', -, off', -, hget', hentry, -⟩ := h.entry_named hP hm hlt'
  rw [getElem?_eq_getElem hlt, hget] at hget'
  rw [hentry, ← Option.some.inj hget']
  dsimp only
  rw [hr]
  exact hb.entry_unique (hb.entryOffset_mem hi) he

theorem sections_ok : sectionsInOrder P.stateMeta P.bytes.length := by
  obtain ⟨h0, h1, -, h3, -, h5, -⟩ := s.offsets_le
  have h7 := le_align8 s.codeStore.length
  rw [h.stateMeta_eq hP, hP, h.length_eq]
  simp only [sectionsInOrder, BlobSections.metaOf, preStateMetaSize, Nat.mul_comm _ addrHashEntrySize,
    Nat.mul_comm _ blockHashEntrySize]
  omega

theorem tile_ok : mphfEntriesTile P.bytes P.preStateMap = true ∧
    mphfEntriesTile P.bytes P.codeStoreMap = true := by
  constructor
  · by_cases hne : accounts = []
    · rw [h.preStateMap_nil hP hne]
      rfl
    · obtain ⟨r, hr, hb, hsome⟩ := h.preStateMap_eq hP hne
      rw [hsome, hP]
      exact Region.mphfEntriesTile_ok
        (hr ▸ (BlobSections.placed h.entries).mphf) hb.built.fits hb.built.indexed
  · rcases h.codeStoreMap_eq hP with ⟨-, hnone⟩ | ⟨r, -, -, htile, hsome⟩
    · rw [hnone]
      rfl
    · rw [hsome]
      exact htile

/-- The walks over an honest blob pass. -/
theorem sanitizeAccounts_ok (hon : Honest keccak256 accounts codes) (hm : m ∈ P.preStateMap) :
    ∃ b, sanitizeAccounts keccak256 P.codeStoreMap P.stateMeta m P.bytes = .ok b := by
  have hl := PreState.addrMapLayout hm
  have htile := (h.tile_ok hP).1
  rw [show P.preStateMap = some m from hm] at htile
  obtain ⟨-, hD, hlen, hend, hrooms⟩ := hl.rooms (h.sections_ok hP) htile
  obtain ⟨b₁, hwalk⟩ := accountWalk_ok hrooms fun o ho => h.passable hP hon hm ho
  obtain ⟨f₁, hready⟩ := accountWalk_spec hwalk hrooms
  -- the table as the second walk finds it
  have hentry := @addrHashEntry_congr P.stateMeta _ _ _ f₁ fun r hr => by
    obtain ⟨o, ho, rfl⟩ := mem_map.mp hr
    exact hend o ho
  have hnamed := fun i hi => h.entry_named hP hm (i := i) hi
  have hfit : ∀ o ∈ m.forEachOffset P.bytes, 256 ≤ m.entryLen P.bytes o ∧ o + 8 + 256 ≤ m.hdr.dataSize :=
    fun o ho => by
      have h1 := (hl.layout.entries o ho).1
      have h2 := hl.records o ho
      simp only [recordSize, accountSize] at h2
      omega
  have hwalk₂ : ∃ b₂,
      addrHashWalk keccak256 P.stateMeta m.data m.hdr.dataSize P.stateMeta.nAccounts 0 none b₁ =
      .ok b₂ := by
    refine addrHashWalk_ok hD (by rw [f₁.1]; omega) (fun j _ hj => ?_) (fun j k _ hj _ hk => ?_)
      (fun j _ hj => ?_)
      (fun _ x hx => by cases hx)
    · obtain ⟨info, -, off, hoff, -, heq, hrec⟩ := hnamed j (by omega)
      rw [hentry, heq]
      exact ⟨rfl, (hfit off hoff).2, (hready off hoff).1.addr.trans hrec.addr⟩
    · obtain ⟨_, -, off, hoff, -, heq, -⟩ := hnamed j (by omega)
      obtain ⟨_, -, off', hoff', -, heq', -⟩ := hnamed k (by omega)
      rw [hentry, hentry, heq, heq']
      by_cases hsame : off = off'
      · exact .inl (by dsimp only; omega)
      · have hapart := apart_of_pairwise hrooms.apart hoff hoff' hsame
        have h1 := (hfit off hoff).1
        have h2 := (hfit off' hoff').1
        unfold Apart at hapart ⊢
        dsimp only
        omega
    · obtain ⟨info, -, off, -, hget, heq, -⟩ := hnamed j (by omega)
      obtain ⟨info', -, off', -, hget', heq', -⟩ := hnamed (j + 1) (by omega)
      rw [hentry, hentry, heq, heq']
      have hstrict := @addrHashTable_strict keccak256 accounts s.mphf hon.addrs hon.addrHashes
      rw [← h.table] at hstrict
      obtain ⟨hlt, hget⟩ := List.getElem?_eq_some_iff.mp hget
      obtain ⟨hlt', hget'⟩ := List.getElem?_eq_some_iff.mp hget'
      have := pairwise_iff_getElem.mp hstrict j (j + 1) hlt hlt' (by omega)
      rwa [hget, hget'] at this
  obtain ⟨b₂, hb₂⟩ := hwalk₂
  have f₂ := (addrHashWalk_spec hb₂ hD (by rw [f₁.1]; omega)).1
  refine ⟨b₂, ?_⟩
  simp only [sanitizeAccounts, bind_eq_ok, rejectIf_eq_ok, pure_eq_ok]
  refine ⟨b₁, hwalk, b₂, hb₂, (), ?_, rfl⟩
  rw [Bool.not_eq_false, marksCleared, all_eq_true, hl.offsets f₁ f₂]
  intro off hoff
  obtain ⟨i, hi, rfl⟩ := h.entry_covers hP hm hoff
  have hz := addrHashWalk_cleared hb₂ hD (by rw [f₁.1]; omega) (Nat.zero_le i) (by omega)
  rw [hentry] at hz
  simp [accModified, hz]

/-- **An honest blob passes `sanitize`**, whatever code the reader has hashed already. -/
theorem sanitize_ok (hon : Honest keccak256 accounts codes) (verified : ℕ → Bool) :
    ∃ b, sanitize keccak256 verified P = .ok b := by
  have hcodes : ¬ ∃ m ∈ P.codeStoreMap, (m.forEachOffset P.bytes).all
      (codeEntryOk keccak256 verified P.bytes m) = false := by
    rintro ⟨m, hm, hall⟩
    rw [all_eq_false] at hall
    obtain ⟨off, hoff, hno⟩ := hall
    obtain ⟨c, -, hpay, hkey⟩ := h.code_entry hP hm hoff
    refine hno ?_
    rw [codeEntryOk, Bool.or_eq_true, decide_eq_true_eq]
    refine .inr ?_
    show (keccak256 (m.payload P.bytes off)).val = m.key P.bytes off
    rw [hpay, hkey]
  have htile := h.tile_ok hP
  simp only [sanitize, bind_eq_ok, rejectIf_eq_ok]
  cases hm : P.preStateMap with
  | none =>
    rw [hm] at htile
    exact ⟨_, (), fun hn => hn (h.sections_ok hP), (), fun hn => hn htile, (), hcodes, rfl⟩
  | some m =>
    rw [hm] at htile
    obtain ⟨b, hb⟩ := h.sanitizeAccounts_ok hP hon hm
    exact ⟨b, (), fun hn => hn (h.sections_ok hP), (), fun hn => hn htile, (), hcodes, hb⟩

/-- So does either build's. -/
theorem sanitizeStore_ok (hon : Honest keccak256 accounts codes) (sealing : Bool)
    (v : CodeStoreVerified) :
    ∃ o, sanitizeStore keccak256 sealing v P = .ok o := by
  obtain ⟨b, hb⟩ := h.sanitize_ok hP hon (v.covers P)
  unfold sanitizeStore
  rw [hb]
  dsimp only [Except.bind, bind]
  split
  · exact ⟨_, rfl⟩
  · split <;> exact ⟨_, rfl⟩

end BlobBuilt

end Zilkworm.Witness
