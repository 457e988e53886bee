/-
# `read_code` on a sanitized witness

The layers put together: the reader's marks hold (`Run/CodeStream`), every entry of the
code store hashes to its key and its payload survives the seal (`Witness/CodeBinding`),
and a run keeps every way to a code (`State/CodeReads`).  What is left is that the state
`sanitize` hands out starts with every way bound.  It does when no mark of the
address-hash table falls on a record's binding; a blob whose surplus entry clears a byte of
a record's code hash is accepted, and `read_code` then returns code of another hash.
-/
import Zilkworm.Run.CodeStream
import Zilkworm.State.CodeReads

namespace Zilkworm.Run

open List Lib Rlp Zilkworm.Types Witness State

/-- The payloads of the code store. -/
def storedCodes (s : PreState) : Set Bytes :=
  {c | ∃ m ∈ s.codeStoreMap, ∃ off ∈ m.forEachOffset s.bytes, c = m.payload s.bytes off}

section Bound

variable {keccak256 : Bytes → Bytes32} {s : PreState} {sealing : Bool} {v : CodeStoreVerified}
  {o : SanitizedBlob} {m : MphfMap}

/-- An entry of the code store that carries a hash is the code of the hash. -/
theorem payload_hash (hv : v.Holds keccak256 s) (h : sanitizeStore keccak256 sealing v s = .ok o)
    (hm : m ∈ s.codeStoreMap) {off : ℕ} (hoff : off ∈ m.forEachOffset s.bytes) {hash : Bytes32}
    (hkey : m.key s.bytes off = hash.val) : keccak256 (m.payload s.bytes off) = hash := by
  obtain ⟨b, hb, -⟩ := sanitizeStore_inv h
  exact Subtype.ext ((sanitize_code hv hb hm hoff).trans hkey)

theorem payload_length (hm : m ∈ s.codeStoreMap) {off : ℕ} (hoff : off ∈ m.forEachOffset s.bytes) :
    (m.payload s.bytes off).length = m.entryLen s.bytes off - kPayloadOffset ∧
      off + 8 + m.entryLen s.bytes off < 2 ^ 32 ∧ kPayloadOffset ≤ m.entryLen s.bytes off := by
  have hl := (PreState.codeStoreLayout hm (MphfMap.forEachOffset_keys hoff)).layout
  obtain ⟨hend, hkey⟩ := hl.entries off hoff
  have h1 := hl.dataEnd
  have h2 := hl.region
  have hsize := PreState.codeStore_dataSize hm
  refine ⟨slice_length_of_le ?_, by omega, by simp only [kPayloadOffset]; omega⟩
  simp only [MphfMap.data, kPayloadOffset]
  omega

/-- **What the witness's lookups find**: a payload of the code store whose key is the hash asked
for, and the place of its body. -/
theorem ofStore_findCode (h : sanitizeStore keccak256 sealing v s = .ok o) {ns : Bytes} {hash : Bytes32}
    {place : ℕ} {code : Bytes} (hf : (WitnessView.ofStore s o ns).findCode hash = some (place, code)) :
    ∃ m ∈ s.codeStoreMap, ∃ off ∈ m.forEachOffset s.bytes, m.key s.bytes off = hash.val ∧
      place = off + 8 ∧ code = m.payload s.bytes off := by
  obtain ⟨b, hb, hout⟩ := sanitizeStore_inv h
  simp only [WitnessView.ofStore] at hf
  rcases hout with ⟨hno, hbytes⟩ | ⟨m, hm, starts, last, hstarts, -, hyes, -, hindex⟩
  · -- the map answers as it did before `sanitize`
    rw [hno] at hf
    simp only [Bool.false_eq_true, if_false, WitnessView.ofBlob] at hf
    obtain ⟨m, hm, hf⟩ := Option.bind_eq_some_iff.mp hf
    obtain ⟨r, hr, hpair⟩ := Option.map_eq_some_iff.mp hf
    rw [hbytes, sanitize_sameCode hb m hm _ hash.2] at hr
    obtain ⟨off, hoff, rfl, hkey⟩ := MphfMap.find_entry hr
    obtain ⟨rfl, rfl⟩ := Prod.mk.inj hpair
    refine ⟨m, hm, off, hoff, ?_, by dsimp only; omega, ?_⟩
    · rw [hash.2] at hkey
      exact hkey
    · rw [← sanitizeStore_payload h hm hoff]
      rfl
  · rw [hyes] at hf
    simp only [if_true, findSealedCode] at hf
    obtain ⟨m', hm', hf⟩ := Option.bind_eq_some_iff.mp hf
    obtain rfl := Option.mem_unique hm hm'
    obtain ⟨e, he, hpair⟩ := Option.map_eq_some_iff.mp hf
    have hcond := find?_some he
    have hmem := mem_of_find?_eq_some he
    rw [hindex] at hmem
    obtain ⟨off, hoff, rfl⟩ := mem_map.mp hmem
    simp only [decide_eq_true_eq] at hcond
    obtain ⟨-, hlt, hge⟩ := payload_length hm hoff
    obtain ⟨rfl, rfl⟩ := Prod.mk.inj hpair
    refine ⟨m, hm, off, hoff, hcond.2, Nat.mod_eq_of_lt (by omega), ?_⟩
    dsimp only [flatKvPayload]
    rw [← sanitizeStore_payload h hm hoff, Nat.mod_eq_of_lt (show off + 8 < 2 ^ 32 by omega),
      Nat.mod_eq_of_lt (show m.entryLen s.bytes off < 2 ^ 32 by omega), ← Nat.add_assoc m.data]

/-- A payload read at its place. -/
theorem ofStore_codeAt (h : sanitizeStore keccak256 sealing v s = .ok o) {ns : Bytes}
    (hm : m ∈ s.codeStoreMap) {off : ℕ} (hoff : off ∈ m.forEachOffset s.bytes) :
    (WitnessView.ofStore s o ns).codeAt (off + 8) (m.entryLen s.bytes off - kPayloadOffset) =
      m.payload s.bytes off := by
  rw [Option.mem_def] at hm
  simp only [WitnessView.ofStore, WitnessView.ofBlob, hm]
  rw [← sanitizeStore_payload h hm hoff, ← Nat.add_assoc m.data]

theorem ofStore_witnessBound (hv : v.Holds keccak256 s) (h : sanitizeStore keccak256 sealing v s = .ok o)
    {ns : Bytes} {codes : Set Bytes} (hcodes : storedCodes s ⊆ codes) :
    WitnessBound keccak256 codes (WitnessView.ofStore s o ns) := by
  refine ⟨fun hash place code hf => ?_, fun hash place code hf => ?_, fun hash place code hf _ => ?_⟩ <;>
    obtain ⟨m, hm, off, hoff, hkey, rfl, rfl⟩ := ofStore_findCode h hf
  · exact payload_hash hv h hm hoff hkey
  · exact hcodes ⟨m, hm, off, hoff, rfl⟩
  · obtain ⟨hlen, hlt, -⟩ := payload_length hm hoff
    rw [hlen]
    exact ⟨ofStore_codeAt h hm hoff, by omega⟩

/-- A lookup leads to an entry the account map visits. -/
theorem findEntry_mem {b : Bytes} {map : Option MphfMap} {a : Address} {off : ℕ}
    (h : findEntry b map a = some off) :
    ∃ m ∈ map, off ∈ m.forEachOffset b := by
  obtain ⟨m, hm, hf⟩ := Option.bind_eq_some_iff.mp h
  obtain ⟨r, hr, hoff⟩ := Option.map_eq_some_iff.mp hf
  obtain ⟨e, he, rfl, -⟩ := MphfMap.find_entry hr
  obtain rfl : e = off := by dsimp only at hoff; omega
  exact ⟨m, hm, he⟩

theorem recordsOf_eq (hm : m ∈ s.preStateMap) (b : Bytes) (off : ℕ) :
    recordsOf s b off = Account.read b (m.data + off + 8) := by
  rw [Option.mem_def] at hm
  simp [recordsOf, hm]

/-- **A sanitized witness starts with every way to a code bound**, if no mark fell on a binding. -/
theorem ofStore_codesBound (hv : v.Holds keccak256 s) (h : sanitizeStore keccak256 sealing v s = .ok o)
    (hkept : CodeFieldsKept s) {ns : Bytes} {codes : Set Bytes} (hcodes : storedCodes s ⊆ codes) :
    CodesBound keccak256 codes (DirectState.ofStore s o ns) := by
  refine ⟨ofStore_witnessBound hv h hcodes, ⟨fun k f c hk => ?_, fun k c hk => ?_⟩, fun a pa hpa => ?_⟩
  · cases hk
  · cases hk
  -- a record that a lookup leads to
  simp only [DirectState.lookupAccount] at hpa
  cases hfind : (DirectState.ofStore s o ns).witness.find a with
  | none => rw [hfind] at hpa; cases hpa
  | some e =>
    rw [hfind] at hpa
    cases hpa
    obtain ⟨m, hm, he⟩ := findEntry_mem hfind
    rw [sanitizeStore_offsets h hm] at he
    rw [show (DirectState.ofStore s o ns).records e = _ from recordsOf_eq hm o.bytes e]
    intro hlen _
    obtain ⟨c, hc, off, hoff, hplace, hsize, hkey⟩ :=
      sanitizeStore_record h hkept hm he (Nat.pos_of_ne_zero hlen)
    have hcode : (WitnessView.ofStore s o ns).codeAt (accCodeStoreOffset o.bytes (m.data + e + 8))
        (accCodeStoreLen o.bytes (m.data + e + 8)) = c.payload s.bytes off := by
      rw [hplace, hsize]
      exact ofStore_codeAt h hc hoff
    refine (congrArg keccak256 hcode).trans (payload_hash hv h hc hoff ?_)
    have hlen32 : (accCodeHash o.bytes (m.data + e + 8)).length = 32 := by
      obtain ⟨b, hb, -⟩ := sanitizeStore_inv h
      rw [← hkey]
      refine slice_length_of_le ?_
      have hl := (PreState.codeStoreLayout hc (MphfMap.forEachOffset_keys hoff)).layout
      have h1 := hl.entries off hoff
      have h2 := hl.dataEnd
      have h3 := hl.region
      simp only [MphfMap.data]
      omega
    rw [hkey]
    show _ = (FixedBytes.load 32 (accCodeHash o.bytes (m.data + e + 8))).val
    rw [FixedBytes.load_val (by omega), take_of_length_le (by omega)]

end Bound

/-- **Code reads are bound to code hashes.**  On a blob `sanitize` accepts, sealed or not, with a
handshake the reader left or none, and if no mark of the address-hash table falls on a record's code
binding: after every run, `read_code` of every address answers with the code of the record's hash,
or with nothing and the witness marked incomplete; and a sealed store has every payload intact and
padded. -/
theorem readCode_bound (keccak256 : Bytes → Bytes32) (hempty : keccak256 [] = kEmptyHash) (s : PreState)
    (v : CodeStoreVerified) (hv : Handshake keccak256 s v) (sealing : Bool) (o : SanitizedBlob)
    (ho : sanitizeStore keccak256 sealing v s = .ok o) (hkept : CodeFieldsKept s) (ns : Bytes)
    (ops : List Op) (hown : ∀ op ∈ ops, op.HashesOwn keccak256)
    (hinj : Set.InjOn keccak256 (storedCodes s ∪ {c | ∃ op ∈ ops, c ∈ op.codes})) (addr : Address) :
    let t := (DirectState.ofStore s o ns).run keccak256 ops
    CodeAnswer keccak256 (t.observeAccount addr).1 (t.readCode addr).1
      (t.readCode addr).2.witnessIncomplete ∧
      (o.codeStoreSealed = true → ∃ m ∈ s.codeStoreMap, ∃ starts, sealLayout s.bytes m = some starts ∧
        SealPads s o m starts) := by
  have hbound := @ofStore_codesBound keccak256 s sealing v o hv.holds ho hkept ns _
    (Set.subset_union_left (t := {c | ∃ op ∈ ops, c ∈ op.codes}))
  exact ⟨hbound.readCode_run hempty hinj
    (fun op hop code hcode => .inr ⟨op, hop, hcode⟩) hown addr, sanitizeStore_sealPads ho⟩

/-! ## A mark on a code hash

The record of `0x11…`, with the first of two codes of the store.  A surplus entry of the
address-hash table takes 20 bytes of the record's code hash for an address: its mark is the last
byte of that hash. -/

namespace Cleared

/-- The code of the record. -/
def codeA : Bytes := [0x60, 0x01, 0x60, 0x00, 0x55]

/-- The store's other code. -/
def codeB : Bytes := [0x60, 0x00, 0xf3]

/-- The record's address. -/
def addr : Address := ⟨replicate 20 0x11, rfl⟩

/-- Twenty bytes of the code's hash. -/
def surplusAddr : Bytes :=
  (Bytes32.ofNat 0x7efcce47028dabcb0d42f3a7eda8820bf6f7f4e618398c2547d52f703cafb073).val.drop 8
    |>.take 20

/-- `keccak256` on the strings the samples hash. -/
def keccak256 (b : Bytes) : Bytes32 :=
  if b = [] then kEmptyHash
  else if b = codeA then Bytes32.ofNat 0x7efcce47028dabcb0d42f3a7eda8820bf6f7f4e618398c2547d52f703cafb073
  else if b = codeB then Bytes32.ofNat 0xd7a430a74ca24012a535ec330c167778c5310e239b48abce66d4b04a1d785554
  else if b = addr.val then
    Bytes32.ofNat 0xe2c07404b8c1df4c46226425cac68c28d27a766bbddce62309f36724839b22c0
  else if b = surplusAddr then
    Bytes32.ofNat 0x22e4cac329b99a61b9875350fa0407a11861bb5f651964f2090f30c93ed95912
  else zeroBytes32

/-- The account map: the record and 72 slack bytes. -/
def accountRegion : Bytes :=
  [kMphfAddrMapMagic, kMphfMapVersion, 1, 1, 0, 0, 0, 0, 0, 0, 56, 64, 72, 344].flatMap (toLe 4) ++
    replicate 8 0 ++ toLe 4 8 ++ replicate 4 0 ++
    replicate 8 0 ++ toLe 8 328 ++ addr.val ++ replicate 4 0 ++ toLe 8 1 ++
    replicate 32 0 ++ (keccak256 codeA).val ++ kEmptyRoot.val ++ toLe 4 0 ++
    toLe 4 codeA.length ++ replicate 192 0

/-- The code store: two entries, both in the collision sidecar. -/
def codeRegion : Bytes :=
  [kMphfCodeStoreMagic, kMphfMapVersion, 2, 1, 0, 0, 0, 0, 72, 32, 56, 64, 104, 104].flatMap (toLe 4) ++
    replicate 16 0 ++ ((keccak256 codeB).val.take 8 ++ toLe 8 56) ++
    ((keccak256 codeA).val.take 8 ++ toLe 8 8) ++ replicate 8 0 ++
    (toLe 8 37 ++ (keccak256 codeA).val ++ codeA ++ replicate 3 0) ++
    (toLe 8 35 ++ (keccak256 codeB).val ++ codeB ++ replicate 5 0)

/-- An entry of the address-hash table. -/
def entry (a : Bytes) (off : ℕ) : Bytes := (keccak256 a).val ++ a ++ toLe 4 off

/-- The blob with the given address-hash table of `n` entries. -/
def blob (n : ℕ) (entries : Bytes) : Bytes :=
  [kMagic, kVersion, n, 0, 72, 488, 488 + 56 * n, 488 + 56 * n, 208].flatMap (toLe 4) ++
    replicate 36 0 ++ accountRegion ++ entries ++ codeRegion

/-- The blob with the surplus entry. -/
def surplus : PreState where
  addr := 8
  bytes := blob 2 (entry surplusAddr 80 ++ entry addr.val 8)
  valid := by decide +kernel

/-- The blob whose table names the record only. -/
def single : PreState where
  addr := 8
  bytes := blob 1 (entry addr.val 8)
  valid := by decide +kernel

/-- What `sanitize` leaves of a blob, in the build that seals or in the other one. -/
def sanitized (sealing : Bool) (s : PreState) : SanitizedBlob :=
  (sanitizeStore keccak256 sealing {} s).toOption.getD { bytes := [] }

/-- A run: the record's code is read, and the store's other code is deployed elsewhere. -/
def ops : List Op :=
  [.read (.readCode addr),
   .mutate (.applyStateDiff
     { modifiedAccounts := [⟨⟨replicate 20 0x22, rfl⟩, 1, 0, some codeB, none, []⟩] })]

/-- The codes of the store and of the run. -/
theorem codes_mem : storedCodes single ∪ {c | ∃ op ∈ ops, c ∈ op.codes} ⊆ {c | c ∈ [codeA, codeB]} := by
  have hstored : ∀ m ∈ single.codeStoreMap, ∀ off ∈ m.forEachOffset single.bytes,
      m.payload single.bytes off ∈ [codeA, codeB] := by decide +kernel
  have hops : ∀ op ∈ ops, ∀ c ∈ op.codes, c ∈ [codeA, codeB] := by decide +kernel
  rintro c (⟨m, hm, off, hoff, rfl⟩ | ⟨op, hop, hc⟩)
  · exact hstored m hm off hoff
  · exact hops op hop c hc

theorem keccak256_injOn : Set.InjOn keccak256 {c | c ∈ [codeA, codeB]} := by
  have h : ∀ a ∈ [codeA, codeB], ∀ b ∈ [codeA, codeB], keccak256 a = keccak256 b → a = b := by
    decide +kernel
  exact fun a ha b hb hab => h a ha b hb hab

end Cleared

open Cleared

/-- The theorem at the blob without a surplus entry, sealed, and a run that reads the code. -/
theorem readCode_bound_single :
    sanitizeStore keccak256 true {} single = .ok (sanitized true single) ∧
    (sanitized true single).codeStoreSealed = true ∧
    (((DirectState.ofStore single (sanitized true single) []).run keccak256 ops).readCode addr).1 =
      codeA ∧
    CodeAnswer keccak256
      (((DirectState.ofStore single (sanitized true single) []).run keccak256 ops).observeAccount addr).1
      (((DirectState.ofStore single (sanitized true single) []).run keccak256 ops).readCode addr).1
      (((DirectState.ofStore single (sanitized true single) []).run keccak256 ops).readCode
        addr).2.witnessIncomplete := by
  have ho : sanitizeStore keccak256 true {} single = .ok (sanitized true single) := by decide +kernel
  have hkept : CodeFieldsKept single := by unfold CodeFieldsKept Apart; decide +kernel
  have hown : ∀ op ∈ ops, op.HashesOwn keccak256 := by
    intro op hop
    simp only [ops, mem_cons, not_mem_nil, or_false] at hop
    rcases hop with rfl | rfl
    · trivial
    · intro m hm code _ h hh
      obtain rfl := mem_singleton.mp hm
      cases hh
  exact ⟨ho, by decide +kernel, by decide +kernel,
    (readCode_bound keccak256 (by decide +kernel) single {} .none true _ ho hkept [] ops hown
      (keccak256_injOn.mono codes_mem) addr).1⟩

/-- The surplus entry has cleared the last byte of the code hash, in either build. -/
theorem surplus_answer (sealing : Bool) :
    sanitizeStore keccak256 sealing {} surplus = .ok (sanitized sealing surplus) ∧
      ¬ CodeAnswer keccak256
        ((DirectState.ofStore surplus (sanitized sealing surplus) []).observeAccount addr).1
        ((DirectState.ofStore surplus (sanitized sealing surplus) []).readCode addr).1
        ((DirectState.ofStore surplus (sanitized sealing surplus) []).readCode
          addr).2.witnessIncomplete := by
  have hrun : ∀ sealing, sanitizeStore keccak256 sealing {} surplus = .ok (sanitized sealing surplus) ∧
      ((DirectState.ofStore surplus (sanitized sealing surplus) []).observeAccount addr).1.deleted =
        false ∧
      ((DirectState.ofStore surplus (sanitized sealing surplus) []).readCode addr).1 = codeA ∧
      keccak256 codeA ≠
        ((DirectState.ofStore surplus (sanitized sealing surplus) []).observeAccount
        addr).1.codeHash := by
    decide +kernel
  obtain ⟨hok, hlive, hcode, hne⟩ := hrun sealing
  refine ⟨hok, fun h => ?_⟩
  rw [hcode] at h
  rcases h.bound hlive with hhash | ⟨hnil, -⟩
  · exact hne hhash
  · cases hnil

/-- **A surplus entry unbinds a record's code.**  Either build's `sanitize` accepts the blob; the
record of `0x11…` is live and `read_code` returns five bytes whose keccak is not the record's code
hash. -/
theorem readCode_surplus_unbound :
    (sanitizeStore keccak256 false {} surplus = .ok (sanitized false surplus) ∧
      ¬ CodeAnswer keccak256
        ((DirectState.ofStore surplus (sanitized false surplus) []).observeAccount addr).1
        ((DirectState.ofStore surplus (sanitized false surplus) []).readCode addr).1
        ((DirectState.ofStore surplus (sanitized false surplus) []).readCode addr).2.witnessIncomplete) ∧
    sanitizeStore keccak256 true {} surplus = .ok (sanitized true surplus) ∧
      ¬ CodeAnswer keccak256
        ((DirectState.ofStore surplus (sanitized true surplus) []).observeAccount addr).1
        ((DirectState.ofStore surplus (sanitized true surplus) []).readCode addr).1
        ((DirectState.ofStore surplus (sanitized true surplus) []).readCode addr).2.witnessIncomplete :=
  ⟨surplus_answer false, surplus_answer true⟩

end Zilkworm.Run
