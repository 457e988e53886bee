/-
# What the code store holds after `sanitize`

Every entry of the code store hashes to its key, those the input reader vouches for
included, and neither the passes over the records nor the seal change a payload byte.  A
record with code is bound to an entry, but the last pass of `sanitize` writes one zero byte
for each entry of the address-hash table, wherever in the data section the entry points: a
surplus entry can hit the code hash or the binding of a record, after both were checked.
The records' bindings stand when no mark falls on them (`CodeFieldsKept`).
-/
import Zilkworm.Witness.Binding
import Zilkworm.Witness.CodeSeal
import Zilkworm.Witness.MphfSafety

namespace Zilkworm.Witness

open List Lib Rlp Zilkworm.Types

variable {sealing : Bool} {v : CodeStoreVerified} {o : SanitizedBlob}

variable {off q : ℕ} {verified : ℕ → Bool} {starts : List ℕ}

/-! ## The code store of an accepted blob -/

/-- What the constructor's checks say about a code store with keys. -/
structure CodeStoreLayout (s : PreState) (m : MphfMap) : Prop where
  layout : MphfLayout 32 0 s.bytes m s.stateMeta.codeStoreSize
  base : m.base = s.stateMeta.codeStoreOffset
  aligned : (s.addr + m.data) % 8 = 0

theorem PreState.codeStoreLayout {s : PreState} {m : MphfMap} (hm : m ∈ s.codeStoreMap)
    (hk : m.hdr.nKeys ≠ 0) : CodeStoreLayout s m := by
  have hv := s.valid
  obtain ⟨hn, rfl⟩ := mem_codeStoreMap hm
  simp only [validatePrestateLayout, bind_eq_ok, rejectIf_eq_ok, exists_and_left, exists_const] at hv
  obtain ⟨-, haddr, -, -, -, -, _, -, _, hcode, -⟩ := hv
  have hl := validateMphf_layout hcode (by omega) hk
  refine ⟨hl, rfl, ?_⟩
  simp only [validateMphf, show (PreStateMeta.read s.bytes).codeStoreSize ≠ 0 by omega, if_false,
    bind_eq_ok, rejectIf_eq_ok, hk, validateSections, exists_and_left, exists_const, not_not] at hcode
  obtain ⟨-, -, hbase, -, -, ⟨-, -, -, -, -, -, -, -, hdata, -⟩, -⟩ := hcode
  simp only [MphfMap.data, MphfMap.reset] at hdata ⊢
  omega

theorem PreState.codeStore_dataSize {s : PreState} {m : MphfMap} (hm : m ∈ s.codeStoreMap) :
    m.hdr.dataSize < 2 ^ 32 := by
  rw [← (mem_codeStoreMap hm).2]
  exact u32At_lt _ _

theorem MphfMap.forEachOffset_keys {b : Bytes} {m : MphfMap} (h : off ∈ m.forEachOffset b) :
    m.hdr.nKeys ≠ 0 := by
  intro hk
  simp [MphfMap.forEachOffset, hk] at h

/-- The payload of the code entry at data offset `off`. -/
def MphfMap.payload (b : Bytes) (m : MphfMap) (off : ℕ) : Bytes :=
  slice b (m.data + off + 8 + kPayloadOffset) (m.entryLen b off - kPayloadOffset)

/-- The key of the entry at data offset `off`. -/
def MphfMap.key (b : Bytes) (m : MphfMap) (off : ℕ) : Bytes := slice b (m.data + off + 8) 32

/-- **What the reader's handshake has to mean**: an entry `sanitize` does not hash for it hashes to
its key. -/
def CodeStoreVerified.Holds (keccak256 : Bytes → Bytes32) (v : CodeStoreVerified) (s : PreState) :
    Prop :=
  ∀ m ∈ s.codeStoreMap, ∀ off ∈ m.forEachOffset s.bytes, v.covers s off = true →
    (keccak256 (m.payload s.bytes off)).val = m.key s.bytes off

/-- The empty handshake vouches for nothing. -/
theorem CodeStoreVerified.holds_empty (keccak256 : Bytes → Bytes32) (s : PreState) :
    CodeStoreVerified.Holds keccak256 {} s := by
  intro m hm off _ h
  rw [Option.mem_def] at hm
  simp [covers, hm] at h

section Sanitize

variable {keccak256 : Bytes → Bytes32} {s : PreState} {m : MphfMap} {b : Bytes}

/-- **Every code entry hashes to its key.** -/
theorem sanitize_code (hv : v.Holds keccak256 s) (h : sanitize keccak256 (v.covers s) s = .ok b)
    (hm : m ∈ s.codeStoreMap) (hoff : off ∈ m.forEachOffset s.bytes) :
    (keccak256 (m.payload s.bytes off)).val = m.key s.bytes off := by
  simp only [sanitize, bind_eq_ok, rejectIf_eq_ok, exists_const] at h
  obtain ⟨-, -, hcode, -⟩ := h
  push Not at hcode
  have hall : (m.forEachOffset s.bytes).all (codeEntryOk keccak256 (v.covers s) s.bytes m) = true := by
    simpa using hcode m hm
  have hok := all_eq_true.mp hall off hoff
  simp only [codeEntryOk, Bool.or_eq_true, decide_eq_true_eq] at hok
  exact hok.elim (hv m hm off hoff) id

theorem sanitize_sections (h : sanitize keccak256 verified s = .ok b) :
    sectionsInOrder s.stateMeta s.bytes.length := by
  simp only [sanitize, bind_eq_ok, rejectIf_eq_ok, exists_const, not_not] at h
  exact h.1

/-- `sanitize` writes before the address-hash table only. -/
theorem sanitize_frame (h : sanitize keccak256 verified s = .ok b) :
    ∃ rs, Frame rs s.bytes b ∧ ∀ r ∈ rs, r.1 + r.2 ≤ s.stateMeta.addrHashesOffset := by
  cases hm : s.preStateMap with
  | none =>
    simp only [sanitize, hm, bind_eq_ok] at h
    obtain ⟨_, -, _, -, _, -, h⟩ := h
    cases h
    exact ⟨[], Frame.refl _, by simp⟩
  | some m =>
    obtain ⟨b₁, hs⟩ := sanitize_accounts h hm
    refine ⟨_, hs.walked.trans hs.marks, fun r hr => ?_⟩
    rcases mem_append.mp hr with hr | hr
    · obtain ⟨o, ho, rfl⟩ := mem_map.mp hr
      exact hs.bodies o ho
    · exact (hs.marksInside r hr).2

theorem sanitize_sameCode (h : sanitize keccak256 verified s = .ok b) :
    SameCode s.codeStoreMap s.bytes b := by
  obtain ⟨rs, hf, hrs⟩ := sanitize_frame h
  obtain ⟨-, -, h3, h4, -⟩ := sanitize_sections h
  exact PreState.sameCode hf fun r hr => by have := hrs r hr; omega

/-- The code store is as it was. -/
theorem sanitize_codeStore (h : sanitize keccak256 verified s = .ok b) {k : ℕ}
    (hq : s.stateMeta.codeStoreOffset ≤ q) : slice b q k = slice s.bytes q k := by
  obtain ⟨rs, hf, hrs⟩ := sanitize_frame h
  obtain ⟨-, -, h3, h4, -⟩ := sanitize_sections h
  refine hf.slice_eq fun r hr => ?_
  have := hrs r hr
  right; omega

/-! ## The seal keeps the payloads -/

theorem sealLayout_dense (h : sealLayout b m = some starts) :
    m.hdr.nKeys ≠ 0 ∧ Dense b m.data m.hdr.dataSize 8 starts ∧ m.hdr.dataSize < 2 ^ 32 - 8 ∧
      ∀ off ∈ m.forEachOffset b, off ∈ starts := by
  unfold sealLayout denseLayout at h
  split_ifs at h with hk hsize
  · cases h
  · obtain ⟨hdense, hall⟩ := Option.filter_eq_some_iff.mp h
    exact ⟨hk, denseFrom_dense hdense, by omega, by simpa using hall⟩

/-- The two outcomes of a build's `sanitize`. -/
theorem sanitizeStore_inv (h : sanitizeStore keccak256 sealing v s = .ok o) :
    ∃ b, sanitize keccak256 (v.covers s) s = .ok b ∧
      (o.codeStoreSealed = false ∧ o.bytes = b ∨
        ∃ m ∈ s.codeStoreMap, ∃ starts last, sealLayout s.bytes m = some starts ∧
          starts.getLast? = some last ∧ o.codeStoreSealed = true ∧
          o.bytes = zeroTails s.addr b m.data last ∧ o.sealedCodeIndex = sealedCodeIndex s.bytes m) := by
  simp only [sanitizeStore, bind_eq_ok] at h
  obtain ⟨b, hb, h⟩ := h
  refine ⟨b, hb, ?_⟩
  split at h
  · cases h
    exact .inl ⟨rfl, rfl⟩
  · rename_i m hm
    have hm : m ∈ s.codeStoreMap := by
      split_ifs at hm
      exact hm
    split at h
    · cases h
      exact .inl ⟨rfl, rfl⟩
    · rename_i last hlast
      obtain ⟨starts, hstarts, hlast⟩ := Option.bind_eq_some_iff.mp hlast
      cases h
      exact .inr ⟨m, hm, starts, last, hstarts, hlast, rfl, rfl, rfl⟩

/-- The zeroing of a sealed store, on the blob the passes left. -/
theorem zeroTails_spec (h : sanitize keccak256 verified s = .ok b) (hm : m ∈ s.codeStoreMap)
    {last : ℕ} (hstarts : sealLayout s.bytes m = some starts) (hlast : starts.getLast? = some last)
    :
    Frame (tails s.addr s.bytes m.data starts.dropLast) b (zeroTails s.addr b m.data last) ∧
      ∀ r ∈ tails s.addr s.bytes m.data starts.dropLast,
        slice (zeroTails s.addr b m.data last) r.1 r.2 = replicate r.2 0 := by
  obtain ⟨hk, hdense, -, -⟩ := sealLayout_dense hstarts
  have hl := PreState.codeStoreLayout hm hk
  obtain ⟨rs, hf, -⟩ := sanitize_frame h
  have hstore : s.stateMeta.codeStoreOffset ≤ m.data := by
    rw [← hl.base]; exact Nat.le_add_right _ _
  have hdata : m.data + m.hdr.dataSize ≤ s.bytes.length := by
    have h1 := hl.layout.dataEnd
    have h2 := hl.layout.region
    simp only [MphfMap.data]
    omega
  have hread : u32At b (m.data + 8) = u32At s.bytes (m.data + 8) := by
    rw [u32At, sanitize_codeStore h (by omega), u32At]
  rw [zeroTails, hread]
  exact zeroTailsFrom_spec hl.aligned hdense hdata hlast hf.1
    (fun q k hq => sanitize_codeStore h (by omega)) (by omega)

theorem u64At_eq_u32At {b : Bytes} (h : u32At b (q + 4) = 0) : u64At b q = u32At b q := by
  have hsplit : slice b q 8 = slice b q 4 ++ slice b (q + 4) 4 := by
    simp only [slice, show 8 = 4 + 4 from rfl, take_add, drop_drop]
  rw [u64At, hsplit, leNat_append]
  simp only [u32At] at h ⊢
  rw [h, Nat.mul_zero, Nat.add_zero]

/-- A payload of a tiled section keeps off every zeroed tail. -/
theorem Dense.payload_apart {addr data dataSize : ℕ} (ha : (addr + data) % 8 = 0)
    (hd : Dense b data dataSize 8 starts) {e : ℕ} (he : e ∈ starts) {r : ℕ × ℕ}
    (hr : r ∈ tails addr b data starts.dropLast) :
    Apart (data + e + 40) (entryEnd b data e - (e + 40)) r.1 r.2 := by
  obtain ⟨t, ht, rfl⟩ := mem_map.mp hr
  have ht := dropLast_subset _ ht
  obtain ⟨-, h2, -⟩ := hd.bounds.2 e he
  have htail := tailSize_le ha (entryEnd b data t)
  have hge := le_align8 (entryEnd b data e)
  unfold Apart
  by_cases heq : e = t
  · subst heq
    left; simp only; omega
  · -- of two entries one lies behind the other's aligned end
    rcases pairwise_iff_getElem.mp hd.pairwise with hpw
    obtain ⟨i, hi, rfl⟩ := getElem_of_mem he
    obtain ⟨j, hj, rfl⟩ := getElem_of_mem ht
    rcases Nat.lt_trichotomy i j with hij | rfl | hij
    · have := hpw i j hi hj hij
      obtain ⟨-, h3, -⟩ := hd.bounds.2 _ ht
      left; simp only; omega
    · exact absurd rfl heq
    · have := hpw j i hj hi hij
      right; simp only; omega

/-- **A sealed code store**: the entries the map refers to are among `starts`, no payload byte of
any of them has changed, and behind every payload but the last lie 33 zero bytes of the section. -/
structure SealPads (s : PreState) (o : SanitizedBlob) (m : MphfMap) (starts : List ℕ) : Prop where
  entries : ∀ off ∈ m.forEachOffset s.bytes, off ∈ starts
  payload : ∀ e ∈ starts, slice o.bytes (m.data + e + 8 + kPayloadOffset)
    (m.entryLen s.bytes e - kPayloadOffset) = m.payload s.bytes e
  zeros : ∀ e ∈ starts, starts.getLast? ≠ some e →
    e + 8 + m.entryLen s.bytes e + 33 ≤ m.hdr.dataSize ∧
      slice o.bytes (m.data + e + 8 + m.entryLen s.bytes e) 33 = replicate 33 0

theorem mem_dropLast_of_ne {α : Type} {l : List α} {x : α} (hx : x ∈ l) (hne : l.getLast? ≠ some x) :
    x ∈ l.dropLast := by
  have hnil : l ≠ [] := ne_nil_of_mem hx
  rw [← dropLast_append_getLast hnil, mem_append, mem_singleton] at hx
  rcases hx with hx | rfl
  · exact hx
  · exact absurd (getLast?_eq_some_getLast hnil) hne

/-- The length word of an entry of a tiled section. -/
theorem Dense.entryLen (hd : Dense b m.data m.hdr.dataSize 8 starts) {e : ℕ} (he : e ∈ starts) :
    e + 8 + m.entryLen b e = entryEnd b m.data e := by
  obtain ⟨-, -, hhi, -⟩ := hd.bounds.2 e he
  rw [MphfMap.entryLen, u64At_eq_u32At hhi, entryEnd]

theorem sanitizeStore_sealPads (h : sanitizeStore keccak256 sealing v s = .ok o)
    (hs : o.codeStoreSealed = true) :
    ∃ m ∈ s.codeStoreMap, ∃ starts, sealLayout s.bytes m = some starts ∧ SealPads s o m starts := by
  obtain ⟨b, hb, ⟨hno, -⟩ | ⟨m, hm, starts, last, hstarts, hlast, -, hbytes, -⟩⟩ := sanitizeStore_inv h
  · rw [hno] at hs; cases hs
  obtain ⟨hk, hdense, -, hall⟩ := sealLayout_dense hstarts
  obtain ⟨hf, hz⟩ := zeroTails_spec hb hm hstarts hlast
  have hl := PreState.codeStoreLayout hm hk
  have hstore : s.stateMeta.codeStoreOffset ≤ m.data := by
    rw [← hl.base]; exact Nat.le_add_right _ _
  refine ⟨m, hm, starts, hstarts, hall, fun e he => ?_, fun e he hne => ?_⟩
  · have hend := hdense.entryLen he
    have hap := fun r hr => hdense.payload_apart hl.aligned he (r := r) hr
    rw [show entryEnd s.bytes m.data e - (e + 40) = m.entryLen s.bytes e - kPayloadOffset by
        simp only [kPayloadOffset]; omega,
      show m.data + e + 40 = m.data + e + 8 + kPayloadOffset by simp only [kPayloadOffset]] at hap
    rw [hbytes, hf.slice_eq hap, sanitize_codeStore hb (by omega), MphfMap.payload]
  · have hend := hdense.entryLen he
    have hmem := mem_dropLast_of_ne he hne
    have hzero := hz _ (mem_map_of_mem hmem)
    have hsize := @le_tailSize s.addr (m.data + entryEnd s.bytes m.data e)
    have hge := le_align8 (entryEnd s.bytes m.data e)
    refine ⟨?_, ?_⟩
    · -- an entry that is not the last leaves room for the next one's header
      rcases (hdense.bounds.2 e he).2.2.2 with hlast' | hroom
      · exfalso
        obtain ⟨i, hi, rfl⟩ := getElem_of_mem he
        rcases Nat.lt_or_ge (i + 1) starts.length with hi' | hi'
        · have hpw := pairwise_iff_getElem.mp hdense.pairwise i (i + 1) hi hi' (by omega)
          have hb := hdense.bounds.2 _ (getElem_mem hi')
          have := le_align8 (entryEnd s.bytes m.data starts[i + 1])
          omega
        · apply hne
          rw [getLast?_eq_getElem?, getElem?_eq_getElem (by omega)]
          congr 2
          omega
      · omega
    · have htake : ∀ n, 33 ≤ n → ∀ q, slice o.bytes q 33 = (slice o.bytes q n).take 33 := by
        intro n hn q
        simp only [slice, take_take, Nat.min_eq_left hn]
      rw [show m.data + e + 8 + m.entryLen s.bytes e = m.data + entryEnd s.bytes m.data e by omega,
        htake (tailSize s.addr (m.data + entryEnd s.bytes m.data e)) (by omega), hbytes]
      simp only at hzero
      rw [hzero, take_replicate, Nat.min_eq_left (by omega)]

/-- A code payload reads in the blob `sanitize` left, sealed or not, as it did before. -/
theorem sanitizeStore_payload (h : sanitizeStore keccak256 sealing v s = .ok o)
    (hm : m ∈ s.codeStoreMap) (hoff : off ∈ m.forEachOffset s.bytes) :
    slice o.bytes (m.data + off + 8 + kPayloadOffset) (m.entryLen s.bytes off - kPayloadOffset) =
      m.payload s.bytes off := by
  by_cases hs : o.codeStoreSealed = true
  · obtain ⟨m', hm', starts, -, hpads⟩ := sanitizeStore_sealPads h hs
    obtain rfl := Option.mem_unique hm hm'
    exact hpads.payload off (hpads.entries off hoff)
  · obtain ⟨b, hb, ⟨-, hbytes⟩ | ⟨_, _, _, _, _, _, hs', _⟩⟩ := sanitizeStore_inv h
    · have hl := PreState.codeStoreLayout hm (MphfMap.forEachOffset_keys hoff)
      have hstore : s.stateMeta.codeStoreOffset ≤ m.data := by
        rw [← hl.base]; exact Nat.le_add_right _ _
      rw [hbytes, sanitize_codeStore hb (by omega), MphfMap.payload]
    · exact absurd hs' hs

end Sanitize

/-! ## The records' code -/

/-- The byte that entry `i` of the address-hash table has cleared. -/
def PreState.markPlace (s : PreState) (m : MphfMap) (i : ℕ) : ℕ :=
  m.data + (addrHashEntry s.bytes s.stateMeta i).entryOffset + 8 + 23

/-- **No mark falls on a code binding**: of no record with code does an entry of the address-hash
table clear a byte of the code hash, the code's offset or its length. -/
def CodeFieldsKept (s : PreState) : Prop :=
  ∀ m ∈ s.preStateMap, ∀ o ∈ m.forEachOffset s.bytes, 0 < accCodeStoreLen s.bytes (m.data + o + 8) →
    ∀ i < s.stateMeta.nAccounts, Apart (m.data + o + 8 + 64) 32 (s.markPlace m i) 1 ∧
      Apart (m.data + o + 8 + 128) 8 (s.markPlace m i) 1

theorem leNat_eq_zero_iff (l : Bytes) : leNat l = 0 ↔ ∀ x ∈ l, x = 0 := by
  induction l with
  | nil => simp [leNat]
  | cons x l ih =>
    simp only [leNat, Nat.add_eq_zero_iff, Nat.mul_eq_zero, OfNat.ofNat_ne_zero, false_or, ih,
      forall_mem_cons]
    exact and_congr_left' ⟨fun h => UInt8.toNat_inj.mp h, fun h => by rw [h]; rfl⟩

/-- A zero word stays zero where bytes change to zero only. -/
theorem u32At_zero {b b' : Bytes} (h : ∀ q, byteAt b' q = byteAt b q ∨ byteAt b' q = 0)
    (hq : q + 4 ≤ b.length) (h0 : u32At b q = 0) : u32At b' q = 0 := by
  rw [u32At, leNat_eq_zero_iff] at h0 ⊢
  intro x hx
  obtain ⟨i, hi⟩ := getElem?_of_mem hx
  rw [slice_getElem?] at hi
  split at hi
  · rename_i hlt
    have hx' : byteAt b' (q + i) = x := by simp [byteAt, List.getD, hi]
    rcases h (q + i) with heq | hz
    · have hb : b[q + i]? = some x := by
        rw [hx', byteAt, List.getD, getElem?_eq_getElem (by omega)] at heq
        rw [getElem?_eq_getElem (by omega), heq]
        rfl
      refine h0 x (mem_of_getElem? (i := i) ?_)
      rw [slice_getElem?, if_pos hlt, hb]
    · exact hx'.symm.trans hz
  · cases hi

section Records

variable {keccak256 : Bytes → Bytes32} {s : PreState} {m : MphfMap} {b₁ b : Bytes}

/-- The entries of the address-hash table stand where they stood. -/
theorem Sanitized.entries_input (h : Sanitized keccak256 s m b₁ b) (i : ℕ) :
    addrHashEntry b₁ s.stateMeta i = addrHashEntry s.bytes s.stateMeta i := by
  have hq : ∀ q k, s.stateMeta.addrHashesOffset ≤ q →
      ∀ r ∈ (m.forEachOffset s.bytes).map (fun o => (m.data + o + 8, m.entryLen s.bytes o)),
        Apart q k r.1 r.2 := by
    intro q k hq r hr
    obtain ⟨o, ho, rfl⟩ := mem_map.mp hr
    exact .inr ((h.bodies o ho).trans hq)
  simp only [addrHashEntry]
  rw [h.walked.slice_eq (hq _ _ (by omega)), h.walked.slice_eq (hq _ _ (by omega)),
    h.walked.u32At_eq (hq _ _ (by omega))]

/-- **A record's code stays bound** when no mark falls on the binding. -/
theorem Sanitized.codeBound (h : Sanitized keccak256 s m b₁ b) (hkept : CodeFieldsKept s)
    (hm : m ∈ s.preStateMap) (hlen : s.stateMeta.addrHashesOffset ≤ s.bytes.length) {o : ℕ}
    (ho : o ∈ m.forEachOffset s.bytes) : CodeBound s.codeStoreMap s.bytes b (m.data + o + 8) := by
  obtain ⟨hsize, hready⟩ := h.ready o ho
  have hbody := h.bodies o ho
  simp only [recordSize, accountSize] at hsize
  rcases Nat.eq_zero_or_pos (accCodeStoreLen s.bytes (m.data + o + 8)) with h0 | hpos
  · intro hpos
    have h1 := h.noCode o ho h0
    have hz : accCodeStoreLen b (m.data + o + 8) = 0 :=
      u32At_zero h.zeroed (by rw [h.walked.1]; omega) h1
    omega
  · have hap : ∀ r ∈ clearedMarks b₁ s.stateMeta m.data s.stateMeta.nAccounts 0,
        Apart (m.data + o + 8 + 64) 32 r.1 r.2 ∧ Apart (m.data + o + 8 + 128) 8 r.1 r.2 := by
      intro r hr
      obtain ⟨i, hi, rfl⟩ := mem_map.mp hr
      obtain ⟨-, hi⟩ := mem_range'_1.mp hi
      rw [h.entries_input]
      exact hkept m hm o ho hpos i (by omega)
    have hhash : accCodeHash b (m.data + o + 8) = accCodeHash b₁ (m.data + o + 8) :=
      h.marks.slice_eq fun r hr => (hap r hr).1
    have hoff : accCodeStoreOffset b (m.data + o + 8) = accCodeStoreOffset b₁ (m.data + o + 8) :=
      h.marks.u32At_eq fun r hr => by have := (hap r hr).2; unfold Apart at this ⊢; omega
    have hcl : accCodeStoreLen b (m.data + o + 8) = accCodeStoreLen b₁ (m.data + o + 8) :=
      h.marks.u32At_eq fun r hr => by have := (hap r hr).2; unfold Apart at this ⊢; omega
    unfold CodeBound
    rw [hhash, hoff, hcl]
    exact hready.codeBound

/-- The seal writes to the code store only. -/
theorem sanitizeStore_seal (h : sanitizeStore keccak256 sealing v s = .ok o) :
    ∃ b rs, sanitize keccak256 (v.covers s) s = .ok b ∧ Frame rs b o.bytes ∧
      ∀ r ∈ rs, s.stateMeta.codeStoreOffset ≤ r.1 := by
  obtain ⟨b, hb, ⟨-, hbytes⟩ | ⟨c, hc, starts, last, hstarts, hlast, -, hbytes, -⟩⟩ :=
    sanitizeStore_inv h
  · exact ⟨b, [], hb, hbytes ▸ Frame.refl b, by simp⟩
  · obtain ⟨hk, -⟩ := sealLayout_dense hstarts
    obtain ⟨hf, -⟩ := zeroTails_spec hb hc hstarts hlast
    have hbase := (PreState.codeStoreLayout hc hk).base
    refine ⟨b, _, hb, hbytes ▸ hf, fun r hr => ?_⟩
    obtain ⟨e, -, rfl⟩ := mem_map.mp hr
    simp only [MphfMap.data]
    omega

/-- Before the code store the seal changes nothing. -/
theorem sanitizeStore_before (h : sanitizeStore keccak256 sealing v s = .ok o) :
    ∃ b, sanitize keccak256 (v.covers s) s = .ok b ∧
      ∀ q k, q + k ≤ s.stateMeta.codeStoreOffset → slice o.bytes q k = slice b q k := by
  obtain ⟨b, rs, hb, hf, hrs⟩ := sanitizeStore_seal h
  refine ⟨b, hb, fun q k hq => hf.slice_eq fun r hr => ?_⟩
  have := hrs r hr
  left
  omega

/-- Every write of a build's `sanitize` lies at or behind the account map's data section. -/
theorem sanitizeStore_frame (h : sanitizeStore keccak256 sealing v s = .ok o) (hm : m ∈ s.preStateMap) :
    ∃ rs, Frame rs s.bytes o.bytes ∧ ∀ r ∈ rs, m.data ≤ r.1 := by
  obtain ⟨b, hb, hout⟩ := sanitizeStore_inv h
  obtain ⟨b₁, hs⟩ := sanitize_accounts hb hm
  have hf := hs.walked.trans hs.marks
  have hin : ∀ r ∈ (m.forEachOffset s.bytes).map (fun o => (m.data + o + 8, m.entryLen s.bytes o)) ++
      clearedMarks b₁ s.stateMeta m.data s.stateMeta.nAccounts 0, m.data ≤ r.1 := by
    intro r hr
    rcases mem_append.mp hr with hr | hr
    · obtain ⟨e, -, rfl⟩ := mem_map.mp hr
      simp only; omega
    · exact (hs.marksInside r hr).1
  rcases hout with ⟨-, hbytes⟩ | ⟨c, hc, starts, last, hstarts, hlast, -, hbytes, -⟩
  · exact ⟨_, hbytes ▸ hf, hin⟩
  · obtain ⟨hk, -⟩ := sealLayout_dense hstarts
    obtain ⟨hz, -⟩ := zeroTails_spec hb hc hstarts hlast
    refine ⟨_, hbytes ▸ hf.trans hz, fun r hr => ?_⟩
    rcases mem_append.mp hr with hr | hr
    · exact hin r hr
    · -- the code store lies behind the account map
      obtain ⟨e, -, rfl⟩ := mem_map.mp hr
      have hl := PreState.addrMapLayout hm
      have hbase := (PreState.codeStoreLayout hc hk).base
      obtain ⟨-, -, h3, h4, -⟩ := sanitize_sections hb
      have h5 := hl.layout.dataEnd
      have h6 := hl.base
      have h7 := hl.nonempty
      simp only [MphfMap.data]
      omega

/-- The account map visits the entries it visited. -/
theorem sanitizeStore_offsets (h : sanitizeStore keccak256 sealing v s = .ok o)
    (hm : m ∈ s.preStateMap) :
    m.forEachOffset o.bytes = m.forEachOffset s.bytes := by
  obtain ⟨rs, hf, hrs⟩ := sanitizeStore_frame h hm
  exact (PreState.addrMapLayout hm).layout.forEachOffset_congr hf fun r hr => .inl (hrs r hr)

/-- **A record with code names an entry of the code store that carries its code hash**, in the blob
a build's `sanitize` left. -/
theorem sanitizeStore_record (h : sanitizeStore keccak256 sealing v s = .ok o)
    (hkept : CodeFieldsKept s) (hm : m ∈ s.preStateMap) (hoff : off ∈ m.forEachOffset s.bytes)
    (hpos : 0 < accCodeStoreLen o.bytes (m.data + off + 8)) :
    ∃ c ∈ s.codeStoreMap, ∃ e ∈ c.forEachOffset s.bytes,
      accCodeStoreOffset o.bytes (m.data + off + 8) = e + 8 ∧
      accCodeStoreLen o.bytes (m.data + off + 8) = c.entryLen s.bytes e - kPayloadOffset ∧
      c.key s.bytes e = accCodeHash o.bytes (m.data + off + 8) := by
  obtain ⟨b, hb, hbefore⟩ := sanitizeStore_before h
  obtain ⟨b₁, hs⟩ := sanitize_accounts hb hm
  obtain ⟨h1, h2, h3, h4, h5⟩ := sanitize_sections hb
  have hbody := hs.bodies off hoff
  have hsize := (PreState.addrMapLayout hm).records off hoff
  simp only [recordSize, accountSize] at hsize
  have hbound := hs.codeBound hkept hm (by omega) hoff
  -- the record's own fields lie before the code store
  have hin : ∀ d k, d + k ≤ 256 → slice o.bytes (m.data + off + 8 + d) k =
      slice b (m.data + off + 8 + d) k := fun d k hd => hbefore _ _ (by omega)
  have hlen : accCodeStoreLen o.bytes (m.data + off + 8) = accCodeStoreLen b (m.data + off + 8) :=
    congrArg leNat (hin 132 4 (by omega))
  have hoffset : accCodeStoreOffset o.bytes (m.data + off + 8) =
      accCodeStoreOffset b (m.data + off + 8) :=
    congrArg leNat (hin 128 4 (by omega))
  have hhash : accCodeHash o.bytes (m.data + off + 8) = accCodeHash b (m.data + off + 8) :=
    hin 64 32 (by omega)
  rw [hlen] at hpos
  obtain ⟨c, body, len, hc, hfind, hge, hco, hcl⟩ := hbound hpos
  obtain ⟨e, he, hr, hkey⟩ := MphfMap.find_entry hfind
  obtain ⟨rfl, rfl⟩ := Prod.mk.inj hr
  have hl := (PreState.codeStoreLayout hc (MphfMap.forEachOffset_keys he)).layout
  have hdata := PreState.codeStore_dataSize hc
  have hent := (hl.entries e he).1
  refine ⟨c, hc, e, he, ?_, ?_, ?_⟩
  · rw [hoffset, hco, show c.data + e + 8 - c.data = e + 8 by omega, Nat.mod_eq_of_lt (by omega)]
  · rw [hlen, hcl, Nat.mod_eq_of_lt (by omega)]
  · have hkl : (accCodeHash b (m.data + off + 8)).length = 32 := by
      rw [accCodeHash]
      refine slice_length_of_le ?_
      rw [hs.marks.1, hs.walked.1]
      omega
    rw [hhash, MphfMap.key, ← hkl]
    exact hkey

end Records

end Zilkworm.Witness
