/-
# The cached leaves along a run

`sanitize` encodes the leaf of every record it prepares, `check_root` and `check_root_new_block`
encode those of the records a block changed, and every mutator that changes an encoded field marks
the cached leaf as stale.  So `rlp_into` gives what a fresh encoding would, at every record and
along every run (`rlpInto_fresh`), if the address-hash table has as many entries as the account map
has records: a surplus entry makes `sanitize` clear a byte wherever it points, after the leaf of
the record there was encoded.
-/
import Zilkworm.Run.ReadCode
import Zilkworm.State.AccountLeaf

namespace Zilkworm.Run

open List Lib Rlp Zilkworm.Types Witness State Chain

/-! ## The checks of the root -/

section Checks

variable {diffs : Set (Bytes32 × Bytes)} (keccak256 : Bytes → Bytes32) (stale : UInt8)

theorem evolves_recache (s : DirectState) (addr : Address) :
    DirectState.Evolves diffs s (recache keccak256 s addr) := by
  unfold recache
  cases h : s.readAccount addr with
  | none => exact .refl s
  | some pa =>
    have hlook : s.lookupAccount addr = some pa := (Option.filter_eq_some_iff.mp h).1
    exact .storeAccount ⟨pa, hlook, .single (.recache pa _)⟩

theorem evolves_clearAbsentReads (s : DirectState) :
    DirectState.Evolves diffs s (clearAbsentReads s) := by
  -- an entry of the new map is one of the old map with its list cleared
  have hfold (l : List (Sigma fun _ : Address => Account)) (m : AddressMap Account) (addr : Address)
      (pa : Account)
      (h : (l.foldl (fun (m : AddressMap Account) e => m.insert e.1 { e.2 with absentReads := [] })
        m).lookup addr =
        some pa) : m.lookup addr = some pa ∨ ∃ pa₀, ⟨addr, pa₀⟩ ∈ l ∧
          pa = { pa₀ with absentReads := [] } := by
    induction l generalizing m with
    | nil => exact .inl h
    | cons e l ih =>
      rcases ih _ h with h | ⟨pa₀, hmem, rfl⟩
      · by_cases heq : addr = e.1
        · subst heq
          rw [AList.lookup_insert] at h
          cases h
          exact .inr ⟨e.2, mem_cons_self, rfl⟩
        · rw [AList.lookup_insert_ne heq] at h
          exact .inl h
      · exact .inr ⟨pa₀, mem_cons_of_mem e hmem, rfl⟩
  refine ⟨rfl, fun off => .single (.clearReads _), fun addr pa h => ?_, .refl⟩
  rcases hfold _ _ addr pa h with h | ⟨pa₀, hmem, rfl⟩
  · cases h
  · exact ⟨pa₀, .inl (AList.mem_lookup_iff.mpr hmem), .single (.clearReads pa₀)⟩

theorem evolves_settleRoot (rev : Revision) (s : DirectState) :
    DirectState.Evolves diffs s (settleRoot keccak256 rev s) := by
  unfold settleRoot
  refine (evolves_clearAbsentReads s).trans
    (.trans (DirectState.evolves_foldl (fun s addr _ => ?_) _) (.of_eq rfl rfl rfl rfl))
  split
  · exact .refl s
  · exact evolves_recache keccak256 s addr

theorem evolves_checkRoot (header : BlockHeader) (rev : Revision) (t : StateTransition)
    (s : DirectState) :
    DirectState.Evolves diffs s (checkRoot keccak256 stale header rev t s).2.2 := by
  unfold checkRoot
  split
  · exact .refl s
  · split
    · exact .refl s
    · exact evolves_settleRoot keccak256 rev s

theorem evolves_checkRootNewBlock (header : BlockHeader) (s : DirectState) :
    DirectState.Evolves diffs s (checkRootNewBlock keccak256 header s).2 := by
  unfold checkRootNewBlock
  dsimp only
  split
  · exact .of_eq rfl rfl rfl rfl
  · have hfold (l : List Address) :=
      @DirectState.evolves_foldl diffs _ _ l (fun s addr _ => evolves_recache keccak256 s addr) s
    split
    · exact (hfold _).trans (.of_eq rfl rfl rfl rfl)
    · exact (hfold _).trans (.of_eq rfl rfl rfl rfl)

end Checks

/-- What happens to a state from its loading on. -/
inductive CommitStep where
  /-- A read or a mutation. -/
  | access (op : Op)
  | insertHeader (header : BlockHeader)
  | setMultiBlock (multiBlock : Bool)
  | checkRoot (header : BlockHeader) (rev : Revision) (t : StateTransition)
  | checkRootNewBlock (header : BlockHeader)

/-- The state after a step. -/
def CommitStep.apply (keccak256 : Bytes → Bytes32) (stale : UInt8) (s : DirectState) :
    CommitStep → DirectState
  | .access op => s.step keccak256 op
  | .insertHeader header => s.insertHeader keccak256 header
  | .setMultiBlock multiBlock => { s with multiBlock := multiBlock }
  | .checkRoot header rev t => (Run.checkRoot keccak256 stale header rev t s).2.2
  | .checkRootNewBlock header => (Run.checkRootNewBlock keccak256 header s).2

/-- **A whole run changes records only as the single changes do.** -/
theorem evolves_run (keccak256 : Bytes → Bytes32) (stale : UInt8) (steps : List CommitStep)
    (s : DirectState) :
    DirectState.Evolves .univ s (steps.foldl (CommitStep.apply keccak256 stale) s) := by
  refine DirectState.evolves_foldl (fun s step _ => ?_) s
  cases step with
  | access op => exact DirectState.evolves_step s fun _ _ _ _ _ _ => trivial
  | insertHeader header => exact .of_eq rfl rfl rfl rfl
  | setMultiBlock multiBlock => exact .of_eq rfl rfl rfl rfl
  | checkRoot header rev t => exact evolves_checkRoot keccak256 stale header rev t s
  | checkRootNewBlock header => exact evolves_checkRootNewBlock keccak256 header s

/-! ## What `sanitize` leaves -/

/-- The offsets a lookup, the walk over the account map or the address-hash table lead to. -/
def Names (w : WitnessView) (off : ℕ) : Prop :=
  off ∈ w.offsets ∨ (∃ e ∈ w.addrHashes, e.entryOffset = off) ∨ ∃ addr, w.find addr = some off

/-- The records a state holds. -/
def HeldRecord (s : DirectState) (pa : Account) : Prop :=
  (∃ off, Names s.witness off ∧ s.records off = pa) ∨ ∃ addr, s.createdAccounts.lookup addr = some pa

/-- A record `sanitize` has prepared has its own leaf in its cache. -/
theorem cacheOk_of_ready {code : Option MphfMap} {b₀ b : Bytes} {p : ℕ} {mark : Bool}
    (h : RecordReady code b₀ b p mark) (hp : p + accountSize ≤ b.length) :
    (Account.read b p).CacheOk := by
  have hfield (d : ℕ) (hd : d + 32 ≤ accountSize) :
      (FixedBytes.load 32 (slice b (p + d) 32)).val = slice b (p + d) 32 := by
    have hlen : (slice b (p + d) 32).length = 32 := slice_length_of_le (by omega)
    rw [FixedBytes.load_val hlen.ge, take_of_length_le hlen.le]
  refine .inr ⟨FixedBytes.load 32 (accStorageRoot b p), ?_⟩
  have hleaf : (Account.read b p).encodeInto (FixedBytes.load 32 (accStorageRoot b p)) =
      accLeaf b p := by
    have hcode : (FixedBytes.load 32 (accCodeHash b p)).val = accCodeHash b p := hfield 64 (by decide)
    have hroot : (FixedBytes.load 32 (accStorageRoot b p)).val = accStorageRoot b p :=
      hfield 96 (by decide)
    simp only [Account.encodeInto, Account.read, accLeaf, hcode, hroot]
  -- the leaf is shorter than the buffer, so the length says where it ends
  have hview : slice b (p + 140) (accRlpLen b p) = (accLeaf b p).1 := by
    have hlen := congrArg List.length h.leaf
    have hshort := accLeaf_length hp
    simp only [accountSize] at hp
    rw [accRlpBuf, length_take, slice_length_of_le (by omega)] at hlen
    rw [← h.leaf, accRlpBuf, slice_take _ (by omega)]
  rw [hleaf]
  exact Prod.ext hview h.srootOff

/-- With as many entries as records, every record is ready in the blob a build's `sanitize` left,
and every name leads to a record. -/
theorem sanitizeStore_ready {keccak256 : Bytes → Bytes32} {s : PreState} {sealing : Bool}
    {v : CodeStoreVerified}
    {o : SanitizedBlob} {m : MphfMap} (h : sanitizeStore keccak256 sealing v s = .ok o)
    (hm : m ∈ s.preStateMap) (hcount : s.stateMeta.nAccounts = s.recordCount) :
    (∀ off ∈ m.forEachOffset s.bytes, RecordReady s.codeStoreMap s.bytes o.bytes
      (m.data + off + 8) false ∧
        m.data + off + 8 + accountSize ≤ o.bytes.length) ∧
      ∀ i < s.stateMeta.nAccounts,
        (addrHashEntry o.bytes s.stateMeta i).entryOffset ∈ m.forEachOffset s.bytes := by
  obtain ⟨b, rs, hb, hseal, hrs⟩ := sanitizeStore_seal h
  obtain ⟨b₁, hs⟩ := sanitize_accounts hb hm
  obtain ⟨h1, h2, h3, h4, h5⟩ := sanitize_sections hb
  have hlen : o.bytes.length = s.bytes.length := by
    rw [hseal.1, hs.marks.1, hs.walked.1]
  rw [Option.mem_def] at hm
  obtain ⟨hmem, -, hready⟩ := hs.of_count (by rw [hcount]; simp [PreState.recordCount, hm])
  constructor
  · intro off hoff
    have hbody := hs.bodies off hoff
    have hslots : accSlotCount b (m.data + off + 8) = accSlotCount b₁ (m.data + off + 8) :=
      hs.marks.u32At_eq fun r hr => by
        rcases hs.marks_apart hmem hoff hr with ha | rfl
        · simp only [recordSize, accountSize] at ha
          unfold Apart at ha ⊢
          omega
        · right; simp only; omega
    have hsize : recordSize b (m.data + off + 8) ≤ m.entryLen s.bytes off := by
      rw [recordSize, hslots]
      exact (hs.ready off hoff).1
    have hrec : accountSize ≤ recordSize b (m.data + off + 8) := Nat.le_add_right _ _
    have hapart (r : ℕ × ℕ) (hr : r ∈ rs) :
        Apart (m.data + off + 8) (recordSize b (m.data + off + 8)) r.1 r.2 := by
      have := hrs r hr
      left
      omega
    refine ⟨(hready off hoff).frame hseal (fun r hr => .inl (hapart r hr)) ?_, by omega⟩
    rw [← (hready off hoff).modified, accModified, accModified]
    rw [hseal.byteAt_eq fun r hr => by have := hrs r hr; left; simp only [accountSize] at hrec; omega]
  · intro i hi
    have hsame : addrHashEntry o.bytes s.stateMeta i = addrHashEntry b s.stateMeta i := by
      have hbefore (q k : ℕ) (hq : q + k ≤ s.stateMeta.codeStoreOffset) : slice o.bytes q k =
          slice b q k :=
        hseal.slice_eq fun r hr => by
          have := hrs r hr
          left
          omega
      simp only [addrHashEntrySize] at h3
      simp only [addrHashEntry, addrHashEntrySize, u32At]
      rw [hbefore _ _ (by omega), hbefore _ _ (by omega), hbefore _ _ (by omega)]
    rw [hsame]
    exact hmem i hi

/-- **After `sanitize` every record has its own leaf in its cache**, if the address-hash table has
as many entries as the account map has records. -/
theorem ofStore_cacheOk {keccak256 : Bytes → Bytes32} {s : PreState} {sealing : Bool}
    {v : CodeStoreVerified} {o : SanitizedBlob} (h : sanitizeStore keccak256 sealing v s = .ok o)
    (hcount : s.stateMeta.nAccounts = s.recordCount) (ns : Bytes) {off : ℕ}
    (hoff : Names (DirectState.ofStore s o ns).witness off) :
    ((DirectState.ofStore s o ns).records off).CacheOk := by
  cases hm : s.preStateMap with
  | none =>
    -- without a map no entry is left to name a record
    have hzero : s.stateMeta.nAccounts = 0 := by rw [hcount]; simp [PreState.recordCount, hm]
    rcases hoff with hoff | ⟨e, he, -⟩ | ⟨addr, hfind⟩
    · simp [DirectState.ofStore, WitnessView.ofStore, WitnessView.ofBlob, hm] at hoff
    · simp [DirectState.ofStore, WitnessView.ofStore, WitnessView.ofBlob, hzero] at he
    · simp [DirectState.ofStore, WitnessView.ofStore, WitnessView.ofBlob, findEntry, hm] at hfind
  | some m =>
    obtain ⟨hready, hentries⟩ := sanitizeStore_ready h hm hcount
    have hnamed : off ∈ m.forEachOffset s.bytes := by
      rcases hoff with hoff | ⟨e, he, rfl⟩ | ⟨addr, hfind⟩
      · rw [← sanitizeStore_offsets h hm]
        simpa [DirectState.ofStore, WitnessView.ofStore, WitnessView.ofBlob, hm] using hoff
      · obtain ⟨i, hi, rfl⟩ := mem_map.mp he
        exact hentries i (mem_range.mp hi)
      · rw [← sanitizeStore_offsets h hm]
        obtain ⟨m', hm', he⟩ := findEntry_mem hfind
        obtain rfl := Option.mem_unique hm hm'
        exact he
    rw [show (DirectState.ofStore s o ns).records off = _ from recordsOf_eq hm o.bytes off]
    exact cacheOk_of_ready (hready off hnamed).1 (hready off hnamed).2

/-- **`rlp_into` always gives a fresh encoding.**  Both encoders write the same bytes, the canonical
RLP of nonce, balance, storage root and code hash, which `decode_trie_account` reads back.  In the
state of a sanitized blob whose address-hash table has as many entries as its account map has
records, every record `rlp_into` is asked for, after every run, encodes as its fields now are. -/
theorem rlpInto_fresh (keccak256 : Bytes → Bytes32) (stale : UInt8) (s : PreState) (sealing : Bool)
    (v : CodeStoreVerified) (o : SanitizedBlob) (ho : sanitizeStore keccak256 sealing v s = .ok o)
    (hcount : s.stateMeta.nAccounts = s.recordCount) (ns : Bytes) (steps : List CommitStep) :
    (∀ (a : Account) (root : Bytes32) (dst rootAddr : ℕ),
      encodeAccountWords dst rootAddr a.nonce a.balance a.codeHash.val root.val = a.encodeInto root ∧
      (a.encodeInto root).1 =
        encodeList (encodeUint a.nonce ++ encodeUint a.balance ++ encodeBytes root.val ++
        encodeBytes a.codeHash.val) ∧
      decodeTrieAccount (a.encodeInto root).1 =
        .ok { addr := FixedBytes.zero 20, nonce := a.nonce, balance := a.balance, storageRoot := root,
              codeHash := a.codeHash }) ∧
    ∀ pa, HeldRecord (steps.foldl (CommitStep.apply keccak256 stale) (DirectState.ofStore s o ns)) pa →
      ∀ root, pa.rlp root = (pa.encodeInto root).1 := by
  constructor
  · intro a root dst rootAddr
    exact ⟨encodeAccountWords_eq dst rootAddr _ _ a.codeHash.2 root.2,
      encodeAccountInto_canonical _ _ _ _, decodeTrieAccount_encodeAccountInto _ _ _ _⟩
  · have hrun := evolves_run keccak256 stale steps (DirectState.ofStore s o ns)
    have hkeeps := hrun.keeps (fun _ _ h hch => Account.CacheOk.change h hch) Account.cacheOk_absent
    rintro pa (⟨off, hoff, rfl⟩ | ⟨addr, hcreated⟩) root
    · rw [hrun.witness] at hoff
      exact (hkeeps.1 off (ofStore_cacheOk ho hcount ns hoff)).rlp root
    · exact (hkeeps.2 addr (fun _ h => by cases h) pa hcreated).rlp root

/-- Two blocks on the sample blob: the record changes, the root is checked, and it changes again. -/
def leafSteps : List CommitStep :=
  [.setMultiBlock true, .access (.mutate (.addToBalance Cleared.addr 7)), .checkRootNewBlock {},
   .access (.mutate (.addToBalance Cleared.addr 9))]

/-- The theorem at the blob whose table names the record only. -/
theorem rlpInto_fresh_single :
    Cleared.single.stateMeta.nAccounts = Cleared.single.recordCount ∧
    ∀ pa, HeldRecord (leafSteps.foldl (CommitStep.apply Cleared.keccak256 0)
      (DirectState.ofStore Cleared.single (Cleared.sanitized true Cleared.single) [])) pa →
      ∀ root, pa.rlp root = (pa.encodeInto root).1 := by
  have hcount : Cleared.single.stateMeta.nAccounts = Cleared.single.recordCount := by decide +kernel
  have ho : sanitizeStore Cleared.keccak256 true {} Cleared.single =
      .ok (Cleared.sanitized true Cleared.single) := by decide +kernel
  exact ⟨hcount, (rlpInto_fresh Cleared.keccak256 0 Cleared.single true {} _ ho hcount [] leafSteps).2⟩

/-- **A surplus entry leaves a stale leaf behind.**  `sanitize` accepts the blob; the record of
`0x11…` is live, and what `rlp_into` copies from its cache is not the encoding of its fields: the
entry's mark cleared the last byte of the code hash after the leaf was encoded. -/
theorem rlpInto_surplus_stale :
    sanitizeStore Cleared.keccak256 true {} Cleared.surplus =
      .ok (Cleared.sanitized true Cleared.surplus) ∧
    ∃ pa, HeldRecord
      (DirectState.ofStore Cleared.surplus (Cleared.sanitized true Cleared.surplus) []) pa ∧
      pa.addr = Cleared.addr ∧ pa.deleted = false ∧
        pa.rlp kEmptyRoot ≠ (pa.encodeInto kEmptyRoot).1 := by
  have hfind :
      (DirectState.ofStore Cleared.surplus (Cleared.sanitized true Cleared.surplus) []).witness.find
      Cleared.addr = some 8 := by decide +kernel
  refine ⟨by decide +kernel, _, .inl ⟨8, .inr (.inr ⟨Cleared.addr, hfind⟩), rfl⟩, ?_⟩
  decide +kernel

end Zilkworm.Run
