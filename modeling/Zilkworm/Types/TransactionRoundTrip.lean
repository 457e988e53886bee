/-
# Transactions are read back

The other direction of `Zilkworm.Types.TransactionCodec`: the encoding of a transaction decodes back
to it, with its views set.  A record can hold what its type does not have (an access list in a
legacy transaction, a priority fee in one that shares it with the fee cap); such fields are not
encoded, and come back at their defaults.
-/
import Zilkworm.Rlp.Strict
import Zilkworm.Types.Signing

namespace Zilkworm.Types

open List Lib Rlp

/-! ## Items -/

@[simp] theorem decodeUint_256 (n : U256) (rest : Bytes) :
    decodeUint 256 .allow (encodeUint n ++ rest) = .ok (n, rest) :=
  @decodeUint_ok 32 .allow n rest (by decide) (.inl rfl)

@[simp] theorem decodeUint_64 (n : U64) (rest : Bytes) :
    decodeUint 64 .allow (encodeUint n ++ rest) = .ok (n, rest) :=
  @decodeUint_ok 8 .allow n rest (by decide) (.inl rfl)

@[simp] theorem decodeUint_8 (n : BitVec 8) (rest : Bytes) :
    decodeUint 8 .allow (encodeUint n ++ rest) = .ok (n, rest) :=
  @decodeUint_ok 1 .allow n rest (by decide) (.inl rfl)

@[simp] theorem decodeBool_allow (x : Bool) (rest : Bytes) :
    decodeBool .allow (encodeBool x ++ rest) = .ok (x, rest) :=
  decodeBool_ok (.inl rfl)

theorem decodeFixed_allow {n : ℕ} (hn : n < 2 ^ 64) (v : FixedBytes n) (rest : Bytes) :
    decodeArray n .allow (encodeFixed v ++ rest) = .ok (v, rest) :=
  decodeArray_ok hn (.inl rfl)

@[simp] theorem decodeAddress (a : Address) (rest : Bytes) :
    decodeArray 20 .allow (encodeFixed a ++ rest) = .ok (a, rest) := decodeFixed_allow (by decide) a rest

@[simp] theorem decodeBytes32 (v : Bytes32) (rest : Bytes) :
    decodeArray 32 .allow (encodeFixed v ++ rest) = .ok (v, rest) := decodeFixed_allow (by decide) v rest

theorem ok_bind {ε α β : Type} (a : α) (f : α → Except ε β) : (Except.ok a >>= f) = f a := rfl

/-- A list of items that are read back is read back. -/
theorem decodeVector_complete {α : Type} {dec : Decoder DecodingError α} {enc : α → Bytes}
    {dom : α → Prop} (h : Complete dec enc dom) (hne : ∀ v, enc v ≠ []) :
    Complete (decodeVector dec .allow) (fun vs => encodeList (vs.flatMap enc))
      fun vs => (∀ v ∈ vs, dom v) ∧ (vs.flatMap enc).length < 2 ^ 64 := by
  rintro vs ⟨hdom, hlen⟩ rest
  dsimp only
  simp only [decodeVector, bind_eq_ok, rejectIf_eq_ok, pure_eq_ok]
  refine ⟨_, decodeHeader_encodeList rest hlen, (), by simp, vs, ?_, (), ?_, ?_⟩
  · rw [take_left]
    exact decodeAll_complete h hne hdom le_rfl
  · rw [checkLeftover_ok]
    exact .inl rfl
  · rw [drop_left]

/-- A fixed sequence of items that are read back is read back as a list. -/
theorem decodeFixed_complete {α : Type} {items : Decoder DecodingError α} {enc : α → Bytes}
    {dom : α → Prop} (h : Complete items enc dom) :
    Complete (decodeFixed items .allow) (fun v => encodeList (enc v)) fun v => dom v ∧
      (enc v).length < 2 ^ 64 := by
  rintro v ⟨hdom, hlen⟩ rest
  dsimp only
  simp only [decodeFixed, bind_eq_ok, rejectIf_eq_ok, pure_eq_ok]
  refine ⟨_, decodeHeader_encodeList rest hlen, (), by simp, (), by simp, (v, rest), h hdom rest,
    (), ?_, rfl⟩
  simp

theorem encodeList_ne_nil (payload : Bytes) : encodeList payload ≠ [] := by
  rw [encodeList]
  exact append_ne_nil_of_left_ne_nil (encodeHeader_ne_nil _) _

theorem encodeFixed_ne_nil {n : ℕ} (v : FixedBytes n) : encodeFixed v ≠ [] := by
  unfold encodeFixed encodeBytes
  split
  · split <;> simp
  · exact append_ne_nil_of_left_ne_nil (encodeHeader_ne_nil _) _

/-- The payload of a list that fits. -/
theorem length_lt_of_encodeList {payload : Bytes} (h : (encodeList payload).length < 2 ^ 64) :
    payload.length < 2 ^ 64 := by
  rw [encodeList, length_append] at h
  omega

theorem fits_of_mem {α : Type} {enc : α → Bytes} {vs : List α}
    (h : (vs.flatMap enc).length < 2 ^ 64) {v : α} (hv : v ∈ vs) : (enc v).length < 2 ^ 64 :=
  ((sublist_flatten_of_mem (mem_map_of_mem hv)).length_le).trans_lt (by rwa [List.flatMap] at h)

theorem decodeHashes_complete :
    Complete (decodeVector (decodeArray 32 .allow) .allow) (encodeVector lengthFixed encodeFixed)
      fun hs => (encodeVector lengthFixed encodeFixed hs).length < 2 ^ 64 := by
  intro hs hfits rest
  rw [encodeVector_eq encodeFixed_length] at hfits ⊢
  have hhash : Complete (decodeArray 32 .allow) encodeFixed fun _ => True := fun v _ => decodeBytes32 v
  exact decodeVector_complete hhash encodeFixed_ne_nil
    ⟨fun _ _ => trivial, length_lt_of_encodeList hfits⟩ rest

theorem decodeAccessListEntry_complete :
    Complete (decodeAccessListEntry .allow) AccessListEntry.encode fun e => e.encode.length <
      2 ^ 64 := by
  intro e hfits rest
  rw [AccessListEntry.encode_eq] at hfits ⊢
  have hlen := length_lt_of_encodeList hfits
  refine @decodeFixed_complete _ _ _ (fun e => e.items.length < 2 ^ 64) (fun e he rest => ?_) _
    ⟨hlen, hlen⟩ rest
  have hkeys : (encodeVector lengthFixed encodeFixed e.storageKeys).length < 2 ^ 64 := by
    have hitems : e.items.length < 2 ^ 64 := he
    rw [AccessListEntry.items, length_append] at hitems
    omega
  rw [AccessListEntry.items, append_assoc, decodeAddress]
  simp only [ok_bind, decodeHashes_complete hkeys rest]
  rfl

theorem decodeAccessList_complete :
    Complete (decodeVector (decodeAccessListEntry .allow) .allow)
      (encodeVector AccessListEntry.length AccessListEntry.encode)
      fun l => (encodeVector AccessListEntry.length AccessListEntry.encode l).length < 2 ^ 64 := by
  intro l hfits rest
  rw [encodeVector_eq AccessListEntry.encode_length] at hfits ⊢
  have hlen := length_lt_of_encodeList hfits
  exact decodeVector_complete decodeAccessListEntry_complete
    (fun e => by rw [AccessListEntry.encode_eq]; exact encodeList_ne_nil _)
    ⟨fun e he => fits_of_mem hlen he, hlen⟩ rest

theorem decodeAuthorization_complete :
    Complete (decodeAuthorization .allow) Authorization.encode fun a => a.encode.length < 2 ^ 64 := by
  intro a hfits rest
  rw [Authorization.encode_eq] at hfits ⊢
  refine @decodeFixed_complete _ _ _ (fun _ => True) (fun a _ rest => ?_) _
    ⟨trivial, length_lt_of_encodeList hfits⟩ rest
  simp only [Authorization.items, append_assoc, decodeUint_256, decodeUint_64, decodeUint_8,
    decodeAddress, ok_bind]
  rfl

theorem decodeAuthorizationList_complete :
    Complete (decodeVector (decodeAuthorization .allow) .allow)
      (encodeVector Authorization.length Authorization.encode)
      fun l => (encodeVector Authorization.length Authorization.encode l).length < 2 ^ 64 := by
  intro l hfits rest
  rw [encodeVector_eq Authorization.encode_length] at hfits ⊢
  have hlen := length_lt_of_encodeList hfits
  exact decodeVector_complete decodeAuthorization_complete
    (fun a => by rw [Authorization.encode_eq]; exact encodeList_ne_nil _)
    ⟨fun a ha => fits_of_mem hlen ha, hlen⟩ rest

/-- The recipient is peeked: an address begins with its length byte. -/
theorem decodeTo_complete (to_ : Option Address) (rest : Bytes) : decodeTo (encodeTo to_ ++ rest) =
    .ok (to_, rest) := by
  cases to_ with
  | none => rfl
  | some a =>
    have hdecode := decodeAddress a rest
    have hhead : encodeFixed a = 0x94 :: a.val := by
      have hlen : a.val.length = 20 := a.2
      rw [encodeFixed, encodeBytes_eq_header (by omega), hlen]
      rfl
    show decodeTo (encodeFixed a ++ rest) = _
    rw [hhead] at hdecode ⊢
    rw [cons_append, decodeTo, if_neg (by decide)]
    rw [cons_append] at hdecode
    rw [hdecode]
    rfl

/-! ## Transactions -/

/-- A record that holds only what its type has: the encoder leaves nothing out.  EIP-155 puts the
chain id of a legacy transaction into a signature value of 256 bits. -/
structure Transaction.Normal (t : Transaction) : Prop where
  supported : t.type ≠ .system
  chainId : t.type ≠ .legacy → t.chainId.isSome
  eip155 : t.type = .legacy → ∀ id ∈ t.chainId, 2 * id.toNat + 35 + t.oddYParity.toNat < 2 ^ 256
  sharedFee : t.type = .legacy ∨ t.type = .accessList → t.maxPriorityFeePerGas = t.maxFeePerGas
  accessList : t.type = .legacy → t.accessList = []
  blobs : t.type ≠ .blob → t.maxFeePerBlobGas = 0 ∧ t.blobVersionedHashes = []
  authorizations : t.type ≠ .setCode → t.authorizations = []

/-- The transaction with the views a decoder sets. -/
def Transaction.withViews (t : Transaction) : Transaction :=
  { t with rlpEncoded := t.encode false, rlpUnsigned := t.unsignedItems }

/-- The signature value of a transaction gives back its parity and chain id. -/
theorem vToYParityAndChainId_of {odd : Bool} {chainId : Option U256}
    (h : ∀ id ∈ chainId, 2 * id.toNat + 35 + odd.toNat < 2 ^ 256) :
    vToYParityAndChainId (yParityAndChainIdToV odd chainId) = some (odd, chainId) := by
  cases chainId with
  | none => cases odd <;> decide
  | some id =>
    have hid := h id rfl
    have hodd := Bool.toNat_le odd
    have hv : (yParityAndChainIdToV odd (some id)).toNat = 2 * id.toNat + 35 + odd.toNat := by
      cases odd with
      | false =>
        rw [Bool.toNat_false] at hid
        simp only [yParityAndChainIdToV, BitVec.toNat_add, BitVec.toNat_mul, BitVec.ofNat_eq_ofNat,
          BitVec.toNat_ofNat, Bool.false_eq_true, if_false, Bool.toNat_false]
        omega
      | true =>
        rw [Bool.toNat_true] at hid
        simp only [yParityAndChainIdToV, BitVec.toNat_add, BitVec.toNat_mul, BitVec.ofNat_eq_ofNat,
          BitVec.toNat_ofNat, if_true, Bool.toNat_true]
        omega
    generalize yParityAndChainIdToV odd (some id) = v at hv
    have hsmall : ¬ (v = 27 ∨ v = 28) := by
      rintro (rfl | rfl)
      · have : (27 : U256).toNat = 27 := rfl
        omega
      · have : (28 : U256).toNat = 28 := rfl
        omega
    have hw : (v - 35).toNat = 2 * id.toNat + odd.toNat := by
      have := v.isLt
      simp only [BitVec.ofNat_eq_ofNat, BitVec.toNat_sub, BitVec.toNat_ofNat]
      omega
    have hshift : (v - 35) >>> 1 = id := by
      apply BitVec.eq_of_toNat_eq
      rw [BitVec.toNat_ushiftRight, hw, Nat.shiftRight_eq_div_pow]
      omega
    rw [vToYParityAndChainId, if_neg hsmall, if_neg (by omega)]
    simp only [hshift, hw]
    cases odd with
    | false => simp
    | true => simp

/-- The signature items of a typed transaction. -/
def Transaction.typedSignature (t : Transaction) : Bytes :=
  encodeBool t.oddYParity ++ (encodeUint t.r ++ encodeUint t.s)

/-- The items of a typed transaction that fits are short enough to be read back. -/
theorem Transaction.items_fit {t : Transaction} (hfits : t.eip2718Items.length < 2 ^ 64) :
    t.data.length < 2 ^ 64 ∧
      (encodeVector AccessListEntry.length AccessListEntry.encode t.accessList).length < 2 ^ 64 ∧
      (t.type = .blob → (encodeVector lengthFixed encodeFixed t.blobVersionedHashes).length < 2 ^ 64) ∧
      (t.type = .setCode →
        (encodeVector Authorization.length Authorization.encode t.authorizations).length < 2 ^ 64) := by
  have hdata := length_le_encodeBytes t.data
  simp only [eip2718Items, length_append] at hfits
  refine ⟨by omega, by omega, fun hb => ?_, fun hs => ?_⟩
  · rw [if_pos hb, length_append] at hfits
    omega
  · rw [if_pos hs] at hfits
    omega

/-- **A typed transaction is read back** behind its type byte. -/
theorem eip2718Decode_complete {t : Transaction} (ht : t.Normal) (hl : t.type ≠ .legacy)
    (hfits : t.typedList.length < 2 ^ 64) (rest : Bytes) :
    eip2718Decode { type := t.type } (t.typedList ++ rest) =
      .ok (t.reset, t.eip2718Items ++ (t.typedSignature ++ rest), t.typedSignature ++ rest, rest) := by
  have hlen := Transaction.typed_items_length hl ht.supported
  have hbody : t.typedList ++ rest =
      encodeHeader ⟨true, t.header⟩ ++ (t.eip2718Items ++ (t.typedSignature ++ rest)) := by
    simp [Transaction.typedList, Transaction.typedSignature]
  have htotal := Transaction.typedList_length hl ht.supported
  have hsig : t.typedSignature.length = 1 + (encodeUint t.r).length + (encodeUint t.s).length := by
    simp [Transaction.typedSignature, Nat.add_assoc]
  have hhead : decodeHeader (t.typedList ++ rest) =
      .ok (⟨true, t.header⟩, t.eip2718Items ++ (t.typedSignature ++ rest)) := by
    rw [hbody]
    refine decodeHeader_encodeHeader (by dsimp only; omega) ?_ fun h => by cases h
    dsimp only
    rw [length_append, length_append]
    omega
  obtain ⟨hdata, haccess, hblob, hauth⟩ := Transaction.items_fit (t := t) (by omega)
  obtain ⟨id, hid⟩ := Option.isSome_iff_exists.mp (ht.chainId hl)
  have hread : ∀ more, decodeBytes .allow (encodeBytes t.data ++ more) = .ok (t.data, more) :=
    fun more => decodeBytes_ok hdata (.inl rfl)
  have hcount : (t.eip2718Items ++ (t.typedSignature ++ rest)).length - rest.length = t.header := by
    rw [length_append, length_append]
    omega
  generalize hits : t.eip2718Items ++ (t.typedSignature ++ rest) = its at hhead hcount
  have hfirst : decodeUint 256 .allow its =
      decodeUint 256 .allow (t.eip2718Items ++ (t.typedSignature ++ rest)) := by
    rw [hits]
  simp only [eip2718Decode, hhead, ok_bind, hfirst]
  cases htype : t.type with
  | legacy => exact absurd htype hl
  | system => exact absurd htype ht.supported
  | accessList =>
    obtain ⟨hgas, hhashes⟩ := ht.blobs (by simp [htype])
    simp [Transaction.eip2718Items, Transaction.typedSignature, Transaction.reset, decodeMaxFee,
      decodeBlobItems,
      decodeAuthorizations, ok_bind, htype, hid, hread, decodeTo_complete,
      decodeAccessList_complete haccess, hcount,
      ht.sharedFee (.inr htype), hgas, hhashes, ht.authorizations (by simp [htype])]
    rfl
  | dynamicFee =>
    obtain ⟨hgas, hhashes⟩ := ht.blobs (by simp [htype])
    simp [Transaction.eip2718Items, Transaction.typedSignature, Transaction.reset, decodeMaxFee,
      decodeBlobItems,
      decodeAuthorizations, ok_bind, htype, hid, hread, decodeTo_complete,
      decodeAccessList_complete haccess, hcount, hgas, hhashes, ht.authorizations (by simp [htype])]
    rfl
  | blob =>
    simp [Transaction.eip2718Items, Transaction.typedSignature, Transaction.reset, decodeMaxFee,
      decodeBlobItems,
      decodeAuthorizations, ok_bind, htype, hid, hread, decodeTo_complete,
      decodeAccessList_complete haccess, hcount,
      decodeHashes_complete (hblob htype), ht.authorizations (by simp [htype])]
    rfl
  | setCode =>
    obtain ⟨hgas, hhashes⟩ := ht.blobs (by simp [htype])
    simp [Transaction.eip2718Items, Transaction.typedSignature, Transaction.reset, decodeMaxFee,
      decodeBlobItems,
      decodeAuthorizations, ok_bind, htype, hid, hread, decodeTo_complete,
      decodeAccessList_complete haccess, hcount,
      decodeAuthorizationList_complete (hauth htype), hgas, hhashes]
    rfl

/-- **A legacy transaction is read back** behind its list header. -/
theorem legacyDecodeItems_complete {t : Transaction} (ht : t.Normal) (hl : t.type = .legacy)
    (hfits : t.legacyItems.length < 2 ^ 64) (rest : Bytes) :
    legacyDecodeItems {} (t.legacyItems ++ rest) =
      .ok (t.reset, encodeUint t.v ++ (encodeUint t.r ++ (encodeUint t.s ++ rest)), rest) := by
  have hdata : t.data.length < 2 ^ 64 := by
    have := length_le_encodeBytes t.data
    simp only [Transaction.legacyItems, Transaction.legacyEncodeBase, length_append] at hfits
    omega
  have hread : ∀ more, decodeBytes .allow (encodeBytes t.data ++ more) = .ok (t.data, more) :=
    fun more => decodeBytes_ok hdata (.inl rfl)
  have hv : vToYParityAndChainId t.v = some (t.oddYParity, t.chainId) :=
    vToYParityAndChainId_of (ht.eip155 hl)
  obtain ⟨hgas, hhashes⟩ := ht.blobs (by simp [hl])
  simp [legacyDecodeItems, Transaction.legacyItems, Transaction.legacyEncodeBase, Transaction.setV,
    Transaction.reset,
    ok_bind, hread, decodeTo_complete, hv, hl, ht.sharedFee (.inl hl), ht.accessList hl, hgas, hhashes,
    ht.authorizations (by simp [hl])]

/-- A header is no type byte. -/
theorem encodeHeader_head {h : Header} (hn : h.payloadLength < 2 ^ 64) :
    ∃ b bs, encodeHeader h = b :: bs ∧ ¬ b < kEmptyStringCode := by
  have hbyte : ∀ n, 0x80 ≤ n → n < 256 → ¬ UInt8.ofNat n < kEmptyStringCode := by
    intro n hn hn'
    have hcode : kEmptyStringCode.toNat = 0x80 := rfl
    rw [UInt8.lt_iff_toNat_lt, UInt8.toNat_ofNat', hcode]
    omega
  unfold encodeHeader
  split
  · exact ⟨_, [], rfl, hbyte _ (by split <;> omega) (by split <;> omega)⟩
  · have hlen := toBigCompact_length (show h.payloadLength < 256 ^ 8 by omega)
    exact ⟨_, _, rfl, hbyte _ (by split <;> omega) (by split <;> omega)⟩

theorem decodeLegacy_complete {t : Transaction} (ht : t.Normal) (hl : t.type = .legacy)
    (hfits : t.legacyItems.length < 2 ^ 64) {mode : Leftover} {rest : Bytes}
    (hmode : mode = .allow ∨ rest = []) :
    decodeLegacy {} mode (encodeList t.legacyItems ++ rest) ⟨true, t.legacyItems.length⟩
      (t.legacyItems ++ rest) =
      .ok (t.withViews, rest) := by
  have hwhole : (encodeList t.legacyItems ++ rest).take
      ((encodeList t.legacyItems ++ rest).length - rest.length) = t.encode false := by
    rw [Transaction.encode_legacy hl, length_append, Nat.add_sub_cancel, take_left]
  have hunsigned : (t.legacyItems ++ rest).take ((t.legacyItems ++ rest).length -
      (encodeUint t.v ++ (encodeUint t.r ++ (encodeUint t.s ++ rest))).length) = t.unsignedItems := by
    have hsplit : t.legacyItems ++ rest =
        t.legacyEncodeBase ++ (encodeUint t.v ++ (encodeUint t.r ++ (encodeUint t.s ++ rest))) := by
      simp [Transaction.legacyItems]
    rw [hsplit, length_append, Nat.add_sub_cancel, take_left, Transaction.unsignedItems, if_pos hl]
  simp only [decodeLegacy, bind_eq_ok, rejectIf_eq_ok, pure_eq_ok]
  refine ⟨(), ?_, _, legacyDecodeItems_complete ht hl hfits rest, (), by simp, ?_⟩
  · rcases hmode with rfl | rfl <;> simp
  · dsimp only
    rw [hwhole, hunsigned]
    rfl

theorem typedOfByte_toByte {type : TransactionType} (hl : type ≠ .legacy) (hs : type ≠ .system) :
    typedOfByte type.toByte = .ok type := by
  cases type with
  | legacy => exact absurd rfl hl
  | system => exact absurd rfl hs
  | accessList => rfl
  | dynamicFee => rfl
  | blob => rfl
  | setCode => rfl

theorem decodeWrapped_complete {t : Transaction} (ht : t.Normal) (hl : t.type ≠ .legacy)
    (hfits : t.typedList.length < 2 ^ 64) {mode : Leftover} {rest : Bytes}
    (hmode : mode = .allow ∨ rest = []) :
    decodeWrapped {} mode ⟨false, (t.encode false).length⟩ (t.encode false ++ rest) =
      .ok (t.withViews, rest) := by
  have hdec := eip2718Decode_complete ht hl hfits []
  rw [append_nil, append_nil] at hdec
  have hunsigned : (t.eip2718Items ++ t.typedSignature).take
      ((t.eip2718Items ++ t.typedSignature).length - t.typedSignature.length) = t.unsignedItems := by
    rw [length_append, Nat.add_sub_cancel, take_left, Transaction.unsignedItems, if_neg hl]
  simp only [decodeWrapped, take_left, drop_left]
  rw [Transaction.encode_typed hl]
  simp only [bind_eq_ok, rejectIf_eq_ok, pure_eq_ok]
  refine ⟨_, typedOfByte_toByte hl ht.supported, _, hdec, (), by simp, (),
    checkLeftover_ok.mpr hmode, ?_⟩
  rw [hunsigned, ← Transaction.encode_typed hl]
  rfl

/-- **A transaction decodes back**, with its views set. -/
theorem decodeTransaction_complete {t : Transaction} (ht : t.Normal)
    (hfits : (t.encode true).length < 2 ^ 64)
    {wrapping : Eip2718Wrapping} (hw : t.type = .legacy ∨ wrapping ≠ .none) {mode : Leftover}
    {rest : Bytes} (hmode : mode = .allow ∨ rest = []) :
    decodeTransaction {} wrapping mode (t.encode true ++ rest) = .ok (t.withViews, rest) := by
  -- either form begins with a header, which is no type byte
  have hheader : ∀ {h : Header} {view : Bytes}, h.payloadLength < 2 ^ 64 →
      decodeHeader (encodeHeader h ++ view) = .ok (h, view) →
      decodeTransaction {} wrapping mode (encodeHeader h ++ view) =
        if h.list then decodeLegacy {} mode (encodeHeader h ++ view) h view
        else rejectIf (wrapping = .none) .unexpectedEip2718Serialization >>= fun _ =>
          decodeWrapped {} mode h view := by
    intro h view hn hd
    obtain ⟨b, bs, hhead, hb⟩ := encodeHeader_head hn
    rw [hhead, cons_append] at hd ⊢
    simp only [decodeTransaction, if_neg (not_and_of_not_right _ hb), hd, ok_bind]
    rfl
  by_cases hl : t.type = .legacy
  · rw [Transaction.encode_legacy hl] at hfits ⊢
    have hpayload := length_lt_of_encodeList hfits
    have hdec := decodeHeader_encodeList rest hpayload
    have hlegacy := decodeLegacy_complete ht hl hpayload hmode
    rw [encodeList, append_assoc] at hdec hlegacy ⊢
    rw [hheader hpayload hdec, if_pos rfl]
    exact hlegacy
  · have hwrapped := Transaction.encode_wrapped hl ht.supported
    have hlong : (t.encode false).length ≠ 1 := by
      rw [Transaction.encode_typed hl, length_cons, Transaction.typedList_length hl ht.supported,
        lengthOfLength]
      split <;> omega
    rw [hwrapped] at hfits ⊢
    have hplain := (length_le_encodeBytes (t.encode false)).trans_lt hfits
    have hdec := decodeHeader_encodeBytes rest hplain
    rw [encodeBytes_eq_header hlong, append_assoc] at hdec ⊢
    rw [hheader hplain hdec, if_neg Bool.false_ne_true, bind_eq_ok]
    refine ⟨(), rejectIf_eq_ok.mpr (hw.resolve_left hl), decodeWrapped_complete ht hl ?_ hmode⟩
    rw [Transaction.encode_typed hl, length_cons] at hplain
    omega

/-- A typed transaction decodes back from its raw form, which leaves no views. -/
theorem decodeTransaction_raw_complete {t : Transaction} (ht : t.Normal) (hl : t.type ≠ .legacy)
    (hfits : (t.encode false).length < 2 ^ 64) {wrapping : Eip2718Wrapping} (hw : wrapping ≠ .string)
    (mode : Leftover) (rest : Bytes) :
    decodeTransaction {} wrapping mode (t.encode false ++ rest) = .ok (t.reset, rest) := by
  have htyped : 0 < t.type.toByte ∧ t.type.toByte < kEmptyStringCode := by
    cases htype : t.type with
    | legacy => exact absurd htype hl
    | system => exact absurd htype ht.supported
    | accessList => decide
    | dynamicFee => decide
    | blob => decide
    | setCode => decide
  rw [Transaction.encode_typed hl] at hfits ⊢
  rw [length_cons] at hfits
  rw [cons_append]
  simp only [decodeTransaction, if_pos htyped, bind_eq_ok, rejectIf_eq_ok, pure_eq_ok]
  exact ⟨(), hw, _, typedOfByte_toByte hl ht.supported, _,
    eip2718Decode_complete ht hl (by omega) rest, rfl⟩

/-- **Transaction decoding is canonical.**  What is accepted as a legacy or string-wrapped
transaction is the encoding of the result, the views are its plain encoding and its unsigned items,
and so the hash, the signing payload and the sender do not depend on them.  Conversely a transaction
that holds only what its type has decodes back, from its wrapped and from its raw form. -/
theorem transaction_codec_canonical (keccak256 : Bytes → Bytes32)
    (recoverAddress : Bytes32 → Bytes → Bool → Option Address) :
    (∀ wrapping mode src t rest, decodeTransaction {} wrapping mode src = .ok (t, rest) →
      rawTyped src = false →
      src = t.encode true ++ rest ∧ t.rlpEncoded = t.encode false ∧
        t.signingPayload = t.encodeForSigning ∧
        t.hash keccak256 = t.reset.hash keccak256 ∧
        t.sender keccak256 recoverAddress = t.reset.sender keccak256 recoverAddress) ∧
    (∀ t : Transaction, t.Normal → (t.encode true).length < 2 ^ 64 → ∀ wrapping mode,
      (t.type = .legacy ∨ wrapping ≠ .none →
        decodeTransaction {} wrapping mode (t.encode true) = .ok (t.withViews, [])) ∧
      (t.type ≠ .legacy → wrapping ≠ .string →
        decodeTransaction {} wrapping mode (t.encode false) = .ok (t.reset, []))) := by
  refine ⟨fun wrapping mode src t rest h hraw => ?_,
    fun t ht hfits wrapping mode => ⟨fun hw => ?_, fun hl hw => ?_⟩⟩
  · obtain ⟨hs, hsrc, hencoded, -⟩ := decodeTransaction_wrapped h hraw
    have hviews := Transaction.ViewsAgree.of_decode h hraw
    exact ⟨hsrc, hencoded, hviews.signingPayload_eq hs, hviews.hash_eq keccak256,
      hviews.sender_eq hs keccak256 recoverAddress⟩
  · have hdec := @decodeTransaction_complete t ht hfits wrapping hw mode [] (.inr rfl)
    rwa [append_nil] at hdec
  · have hplain : (t.encode false).length < 2 ^ 64 := by
      rw [Transaction.encode_wrapped hl ht.supported] at hfits
      exact (length_le_encodeBytes _).trans_lt hfits
    have := decodeTransaction_raw_complete ht hl hplain hw mode []
    rwa [append_nil] at this

/-- A legacy record with a priority fee of its own, which a legacy transaction does not have. -/
def mixedFees : Transaction := { maxPriorityFeePerGas := 1, maxFeePerGas := 2 }

/-- **A field its type does not have is not encoded**, and does not come back. -/
theorem decodeTransaction_drops_priorityFee :
    mixedFees.type = .legacy ∧
      ∃ t, decodeTransaction {} .string .prohibit (mixedFees.encode true) = .ok (t, []) ∧
        t.maxPriorityFeePerGas = 2 ∧ mixedFees.maxPriorityFeePerGas = 1 := by
  refine ⟨rfl, Transaction.withViews { mixedFees with maxPriorityFeePerGas := 2 }, ?_, rfl, rfl⟩
  decide

end Zilkworm.Types
