/-
# Transaction decoding is canonical

What `decode_transaction` accepts is the encoding of what it returns.  A legacy
transaction is read from exactly its own bytes; a raw typed transaction is read from a
prefix, and whatever follows it is handed back to the caller unseen.
-/
import Zilkworm.Types.Transaction

namespace Zilkworm.Types

open List Lib Rlp

variable {type : TransactionType} {t t' : Transaction}

variable {n : ℕ} {rest src : Bytes}

theorem decodeArray_canonicalFixed (n : ℕ) : Canonical (decodeArray n .allow) encodeFixed :=
  decodeArray_canonical n .allow

/-- A fixed-size string is encoded in the length that `length` computes. -/
@[simp] theorem encodeFixed_length (v : FixedBytes n) :
    (encodeFixed v).length = lengthFixed v := encodeBytes_length v.val

theorem encodeFixed_eq (v : FixedBytes n) (hn : n ≠ 1) :
    encodeFixed v = encodeHeader ⟨false, n⟩ ++ v.val := by
  rw [encodeFixed, encodeBytes_eq_header (by rwa [v.2]), v.2]

/-- A byte array other than of one byte takes its header and its bytes. -/
theorem lengthFixed_eq (v : FixedBytes n) (hn : n ≠ 1) : lengthFixed v = n + lengthOfLength n := by
  rw [← encodeFixed_length, encodeFixed_eq v hn, length_append, encodeHeader_length, v.2, Nat.add_comm]

/-- An address takes its length byte and twenty more. -/
theorem lengthFixed_address (a : Address) : lengthFixed a = 20 + 1 := lengthFixed_eq a (by decide)

/-! ## Access lists and authorizations -/

/-- The items of an access-list entry. -/
def AccessListEntry.items (e : AccessListEntry) : Bytes :=
  encodeFixed e.account ++ encodeVector lengthFixed encodeFixed e.storageKeys

theorem AccessListEntry.items_length (e : AccessListEntry) : e.items.length = e.header := by
  simp [AccessListEntry.items, AccessListEntry.header, encodeVector_length encodeFixed_length,
    lengthFixed_address]

theorem AccessListEntry.encode_eq (e : AccessListEntry) : e.encode = encodeList e.items := by
  rw [encodeList, e.items_length]
  simp [AccessListEntry.encode, AccessListEntry.items]

theorem AccessListEntry.encode_length (e : AccessListEntry) : e.encode.length = e.length := by
  rw [AccessListEntry.encode_eq, encodeList_length, e.items_length, AccessListEntry.length]

theorem decodeHashes_canonical :
    Canonical (decodeVector (decodeArray 32 .allow) .allow)
      (encodeVector lengthFixed encodeFixed) := by
  intro src v rest h
  rw [encodeVector_eq encodeFixed_length]
  exact decodeVector_canonical (decodeArray_canonicalFixed 32) .allow h

/-- An access list entry is accepted only as it is encoded. -/
theorem decodeAccessListEntry_canonical (mode : Leftover) :
    Canonical (decodeAccessListEntry mode) AccessListEntry.encode := by
  rw [funext AccessListEntry.encode_eq]
  refine decodeFixed_canonical ?_ mode
  intro src e rest h
  simp only [bind_eq_ok, pure_eq_ok, Prod.mk.injEq, Prod.exists] at h
  obtain ⟨account, s₁, h₁, keys, s₂, h₂, rfl, rfl⟩ := h
  rw [decodeArray_canonicalFixed 20 h₁, decodeHashes_canonical h₂]
  simp [AccessListEntry.items]

/-- The items of an authorization. -/
def Authorization.items (a : Authorization) : Bytes :=
  encodeUint a.chainId ++ encodeFixed a.address ++ encodeUint a.nonce ++ encodeUint a.yParity ++
    encodeUint a.r ++ encodeUint a.s

theorem Authorization.items_length (a : Authorization) : a.items.length = a.header := by
  simp [Authorization.items, Authorization.header, encodeUint_length, lengthFixed_address,
    Nat.add_assoc]

theorem Authorization.encode_eq (a : Authorization) : a.encode = encodeList a.items := by
  rw [encodeList, a.items_length]
  simp [Authorization.encode, Authorization.items]

theorem Authorization.encode_length (a : Authorization) : a.encode.length = a.length := by
  rw [Authorization.encode_eq, encodeList_length, a.items_length, Authorization.length]

/-- An authorization is accepted only as it is encoded. -/
theorem decodeAuthorization_canonical (mode : Leftover) :
    Canonical (decodeAuthorization mode) Authorization.encode := by
  rw [funext Authorization.encode_eq]
  refine decodeFixed_canonical ?_ mode
  intro src a rest h
  simp only [bind_eq_ok, pure_eq_ok, Prod.mk.injEq, Prod.exists] at h
  obtain ⟨_, _, h₁, _, _, h₂, _, _, h₃, _, _, h₄, _, _, h₅, _, _, h₆, rfl, rfl⟩ := h
  rw [decodeUint_canonical _ _ h₁, decodeArray_canonicalFixed 20 h₂, decodeUint_canonical _ _ h₃,
    decodeUint_canonical _ _ h₄, decodeUint_canonical _ _ h₅, decodeUint_canonical _ _ h₆]
  simp [Authorization.items]

/-- The recipient, or an empty string for a creation, is accepted only as it is encoded. -/
theorem decodeTo_canonical : Canonical decodeTo encodeTo := by
  intro src v rest h
  cases src with
  | nil => cases h
  | cons b bs =>
    simp only [decodeTo] at h
    split at h
    case isTrue hb => cases h; simp [encodeTo, hb]
    case isFalse hb =>
      simp only [bind_eq_ok, pure_eq_ok, Prod.mk.injEq, Prod.exists] at h
      obtain ⟨a, r, ha, rfl, rfl⟩ := h
      exact decodeArray_canonicalFixed 20 ha

theorem encodeTo_length (to_ : Option Address) :
    (encodeTo to_).length = if to_.isSome then 20 + 1 else 1 := by
  cases to_ with
  | none => rfl
  | some a => simp [encodeTo, lengthFixed_address]

/-! ## Typed transactions -/

/-- The bytes of a typed transaction behind its type byte. -/
def Transaction.typedList (t : Transaction) : Bytes :=
  encodeHeader ⟨true, t.header⟩ ++ t.eip2718Items ++ encodeBool t.oddYParity ++ encodeUint t.r ++
    encodeUint t.s

theorem Transaction.encode_typed {t : Transaction} (h : t.type ≠ .legacy) :
    t.encode false = t.type.toByte :: t.typedList := by
  simp [Transaction.encode, h, Transaction.eip2718EncodeForSigning, Transaction.typedList]

/-- A type byte that is accepted is the byte of a typed transaction. -/
theorem typedOfByte_ok {b : UInt8} {type : TransactionType} (h : typedOfByte b = .ok type) :
    type.toByte = b ∧ type ≠ .legacy ∧ type ≠ .system := by
  unfold typedOfByte at h
  split at h
  · cases h; simp_all [TransactionType.toByte]
  split at h
  · cases h; simp_all [TransactionType.toByte]
  split at h
  · cases h; simp_all [TransactionType.toByte]
  split at h
  · cases h; simp_all [TransactionType.toByte]
  · cases h

/-- `header` counts exactly the items a typed transaction's encoder writes. -/
theorem Transaction.typed_items_length {t : Transaction} (h : t.type ≠ .legacy)
    (hs : t.type ≠ .system) :
    t.eip2718Items.length + (1 + (encodeUint t.r).length + (encodeUint t.s).length) = t.header := by
  have hal := encodeVector_length AccessListEntry.encode_length t.accessList
  have hbh := encodeVector_length (encodeFixed_length (n := 32)) t.blobVersionedHashes
  have hau := encodeVector_length Authorization.encode_length t.authorizations
  simp only [Transaction.eip2718Items, Transaction.header, Transaction.headerBase,
    length_append, encodeUint_length, encodeBytes_length, encodeTo_length, hal, h, ne_eq,
    not_false_eq_true, if_true]
  cases htype : t.type with
  | legacy => exact absurd htype h
  | system => exact absurd htype hs
  | accessList => simp; omega
  | dynamicFee => simp [encodeUint_length]; omega
  | blob => simp [encodeUint_length, hbh]; omega
  | setCode => simp [encodeUint_length, hau]; omega

/-- Type 1 has one fee on the wire, the later types two. -/
theorem decodeMaxFee_spec {p m : U256} (h : decodeMaxFee type p src = .ok (m, rest)) :
    encodeUint p ++ src = (if type ≠ .accessList then encodeUint p else []) ++ encodeUint m ++ rest := by
  unfold decodeMaxFee at h
  split at h
  case isTrue ht => cases h; simp [ht]
  case isFalse ht => simp [ht, decodeUint_canonical _ _ h]

/-- The blob fee and hashes are on the wire in type 3 only. -/
theorem decodeBlobItems_spec {g : U256} {hs : List Bytes32}
    (h : decodeBlobItems type src = .ok ((g, hs), rest)) :
    src = (if type = .blob then encodeUint g ++ encodeVector lengthFixed encodeFixed hs else []) ++
      rest := by
  unfold decodeBlobItems at h
  split at h
  case isTrue ht => cases h; simp [ht]
  case isFalse ht =>
    simp only [bind_eq_ok, pure_eq_ok, Prod.mk.injEq, Prod.exists] at h
    obtain ⟨_, _, h₁, _, _, h₂, ⟨rfl, rfl⟩, rfl⟩ := h
    obtain rfl : type = .blob := by simpa using ht
    simp [decodeUint_canonical _ _ h₁, decodeHashes_canonical h₂]

/-- The authorizations are on the wire in type 4 only. -/
theorem decodeAuthorizations_spec {old as : List Authorization}
    (h : decodeAuthorizations type old src = .ok (as, rest)) :
    src = (if type = .setCode then encodeVector Authorization.length Authorization.encode as
      else []) ++ rest := by
  unfold decodeAuthorizations at h
  split at h
  case isTrue ht =>
    rw [if_pos ht, encodeVector_eq Authorization.encode_length]
    exact decodeVector_canonical (decodeAuthorization_canonical .allow) .allow h
  case isFalse ht => cases h; simp [ht]

theorem decodeAccessList_canonical :
    Canonical (decodeVector (decodeAccessListEntry .allow) .allow)
      (encodeVector AccessListEntry.length AccessListEntry.encode) := by
  intro src v rest h
  rw [encodeVector_eq AccessListEntry.encode_length]
  exact decodeVector_canonical (decodeAccessListEntry_canonical .allow) .allow h

/-- **A typed transaction is read from its own list.**  The bytes consumed are the list the
encoder writes behind the type byte; the rest of the view is returned as it is. -/
theorem eip2718Decode_spec {items sig : Bytes}
    (h : eip2718Decode t src = .ok (t', items, sig, rest)) (hl : t.type ≠ .legacy)
    (hs : t.type ≠ .system) :
    t'.type = t.type ∧ t'.rlpEncoded = t.rlpEncoded ∧ src = t'.typedList ++ rest ∧
      items = t'.eip2718Items ++ sig ∧
      ∃ hd, decodeHeader src = .ok (hd, items) ∧ rest = items.drop hd.payloadLength := by
  simp only [eip2718Decode, bind_eq_ok, rejectIf_eq_ok, pure_eq_ok, Prod.mk.injEq,
    Prod.exists] at h
  obtain ⟨hd, its, hhd, -, hlist, chainId, s₁, h₁, nonce, s₂, h₂, prio, s₃, h₃, fee, s₄, h₄, gas,
    s₅, h₅, to_, s₆, h₆, value, s₇, h₇, data, s₈, h₈, al, s₉, h₉, bg, bh, s₁₀, h₁₀, auths, sg, h₁₁,
    odd, s₁₂, h₁₂, r, s₁₃, h₁₃, s, s₁₄, h₁₄, -, hlen, rfl, rfl, rfl, rfl⟩ := h
  refine ⟨rfl, rfl, ?_⟩
  obtain ⟨hle, hsrc⟩ := decodeHeader_list hhd (by simpa using hlist)
  have hlen' : its.length - s₁₄.length = hd.payloadLength := by simpa using hlen
  -- the items in order, from the chain id to the signature
  have hsig : sg = encodeBool odd ++ (encodeUint r ++ (encodeUint s ++ s₁₄)) := by
    rw [decodeBool_canonical _ h₁₂, decodeUint_canonical _ _ h₁₃, decodeUint_canonical _ _ h₁₄]
  have hunsigned : its = Transaction.eip2718Items { t with
      chainId := some chainId, nonce := nonce, maxPriorityFeePerGas := prio,
      maxFeePerGas := fee, gasLimit := gas, to_ := to_, value := value, data := data,
      accessList := al, maxFeePerBlobGas := bg, blobVersionedHashes := bh,
      authorizations := auths, oddYParity := odd, r := r, s := s } ++ sg := by
    rw [decodeUint_canonical _ _ h₁, decodeUint_canonical _ _ h₂, decodeUint_canonical _ _ h₃,
      decodeMaxFee_spec h₄, decodeUint_canonical _ _ h₅, decodeTo_canonical h₆,
      decodeUint_canonical _ _ h₇, decodeBytes_canonical _ h₈, decodeAccessList_canonical h₉,
      decodeBlobItems_spec h₁₀, decodeAuthorizations_spec h₁₁]
    simp [Transaction.eip2718Items]
  have hitems := hsig ▸ hunsigned
  set t' : Transaction := { t with
      chainId := some chainId, nonce := nonce, maxPriorityFeePerGas := prio,
      maxFeePerGas := fee, gasLimit := gas, to_ := to_, value := value, data := data,
      accessList := al, maxFeePerBlobGas := bg, blobVersionedHashes := bh,
      authorizations := auths, oddYParity := odd, r := r, s := s } with ht'
  have hcount := Transaction.typed_items_length (t := t') hl hs
  have hpay : hd.payloadLength = t'.header := by
    have := congrArg List.length hitems
    simp only [length_append, encodeBool_length] at this
    rw [← hcount, ← hlen', this]
    show _ = _ + (1 + (encodeUint r).length + (encodeUint s).length)
    omega
  refine ⟨?_, hunsigned, hd, hhd, ?_⟩
  · rw [hsrc, hpay, hitems]
    simp [Transaction.typedList, ht']
  · have hsuffix : s₁₄ <:+ its := by
      rw [hitems]
      simp only [← append_assoc]
      exact suffix_append _ _
    rw [← hlen']
    exact suffix_iff_eq_drop.mp hsuffix

/-! ## Legacy transactions -/

/-- The items of a legacy transaction. -/
def Transaction.legacyItems (t : Transaction) : Bytes :=
  t.legacyEncodeBase ++ encodeUint t.v ++ encodeUint t.r ++ encodeUint t.s

theorem Transaction.legacyItems_length {t : Transaction} (h : t.type = .legacy) :
    t.legacyItems.length = t.header := by
  simp only [Transaction.legacyItems, Transaction.legacyEncodeBase, Transaction.header,
    Transaction.headerBase, length_append, encodeUint_length, encodeBytes_length,
    encodeTo_length, h, ne_eq, not_true_eq_false, if_false, reduceCtorEq, or_self]
  omega

theorem Transaction.encode_legacy {t : Transaction} (h : t.type = .legacy) (wrap : Bool) :
    t.encode wrap = encodeList t.legacyItems := by
  rw [encodeList, Transaction.legacyItems_length h]
  simp [Transaction.encode, h, Transaction.legacyItems]

/-- `set_v` accepts a `v` that the transaction then encodes to. -/
theorem Transaction.setV_spec {v : U256} (h : t.setV v = some t') :
    t'.v = v ∧ t'.type = t.type ∧ t'.legacyEncodeBase = t.legacyEncodeBase := by
  simp only [Transaction.setV, Option.map_eq_some_iff, Prod.exists] at h
  obtain ⟨odd, id, hv, rfl⟩ := h
  exact ⟨yParityAndChainIdToV_of_v hv, rfl, rfl⟩

/-- The items of a legacy transaction are read as they are encoded; the signature is the last three.
-/
theorem legacyDecodeItems_spec {sig : Bytes} (h : legacyDecodeItems t src = .ok (t', sig, rest)) :
    t'.type = t.type ∧ src = t'.legacyItems ++ rest ∧ src = t'.legacyEncodeBase ++ sig := by
  simp only [legacyDecodeItems, bind_eq_ok, Prod.exists] at h
  obtain ⟨nonce, s₁, h₁, fee, s₂, h₂, gas, s₃, h₃, to_, s₄, h₄, value, s₅, h₅, data, s₆, h₆, v, s₇,
    h₇, h⟩ := h
  split at h
  · cases h
  · rename_i t₁ hv
    simp only [bind_eq_ok, pure_eq_ok, Prod.mk.injEq, Prod.exists] at h
    obtain ⟨r, s₈, h₈, s, s₉, h₉, rfl, rfl, rfl⟩ := h
    obtain ⟨hv', ht, hb⟩ := Transaction.setV_spec hv
    have hbase : src = t₁.legacyEncodeBase ++ s₆ := by
      rw [decodeUint_canonical _ _ h₁, decodeUint_canonical _ _ h₂, decodeUint_canonical _ _ h₃,
        decodeTo_canonical h₄, decodeUint_canonical _ _ h₅, decodeBytes_canonical _ h₆, hb]
      simp [Transaction.legacyEncodeBase]
    refine ⟨ht, ?_, hbase⟩
    rw [hbase, decodeUint_canonical _ _ h₇, decodeUint_canonical _ _ h₈, decodeUint_canonical _ _ h₉]
    show _ = (t₁.legacyEncodeBase ++ encodeUint t₁.v ++ encodeUint r ++ encodeUint s) ++ _
    rw [hv']
    simp

/-- A legacy transaction behind its list header: its bytes are its encoding, and with no
leftover allowed nothing follows. -/
theorem decodeLegacy_spec {mode : Leftover} {whole items : Bytes} {h : Header}
    (hd : decodeHeader whole = .ok (h, items)) (hl : h.list = true)
    (hdec : decodeLegacy t mode whole h items = .ok (t', rest)) :
    t'.type = .legacy ∧ whole = t'.encode false ++ rest ∧ t'.rlpEncoded = t'.encode false ∧
      t'.rlpUnsigned = t'.legacyEncodeBase ∧ rest = items.drop h.payloadLength ∧
        (mode = .prohibit → rest = []) := by
  simp only [decodeLegacy, bind_eq_ok, rejectIf_eq_ok, pure_eq_ok, Prod.mk.injEq,
    Prod.exists] at hdec
  obtain ⟨-, hmode, t₁, sig, r, hitems, -, hleft, rfl, rfl⟩ := hdec
  obtain ⟨ht, hsrc, hbase⟩ := legacyDecodeItems_spec hitems
  obtain ⟨hlen, hwhole⟩ := decodeHeader_list hd hl
  have hn := payload_of_leftover hlen hsrc (by simpa using hleft)
  have henc : whole = t₁.encode false ++ r := by
    rw [Transaction.encode_legacy ht, encodeList, ← hn, append_assoc, ← hsrc]
    exact hwhole
  refine ⟨ht, henc, ?_, ?_, ?_, fun hp => ?_⟩
  · show whole.take (whole.length - r.length) = t₁.encode false
    rw [henc]
    simp
  · show items.take (items.length - sig.length) = t₁.legacyEncodeBase
    rw [hbase]
    simp
  · rw [hn, hsrc, drop_left]
  · have : items.length - h.payloadLength = 0 := by
      by_contra h0
      exact hmode ⟨by simp [hp], h0⟩
    rw [not_ne_iff, this] at hleft
    exact length_eq_zero_iff.mp hleft

/-! ## `decode_transaction` without string wrapping -/

/-- The bytes behind the RLP item of a serialized transaction: behind its type byte, if it has one,
the item is the list of its fields. -/
def trailingBytes (raw : Bytes) : Bytes :=
  let item := match raw with
    | [] => []
    | b :: rest => if 0 < b ∧ b < kEmptyStringCode then rest else raw
  match decodeHeader item with
  | .ok (h, rest) => rest.drop h.payloadLength
  | .error _ => []

/-- **What the unwrapped mode accepts.**  A legacy transaction fills the whole view and is kept
as its cached encoding.  A raw typed transaction is read from a prefix; the bytes behind it are
returned whatever they are, and no encoding is cached. -/
theorem decodeTransaction_unwrapped (h : decodeTransaction t .none .prohibit src = .ok (t', rest)) :
    src = t'.encode false ++ rest ∧ trailingBytes src = rest ∧
      ((t'.type = .legacy ∧ rest = [] ∧ t'.rlpEncoded = t'.encode false) ∨
        (t'.type ≠ .legacy ∧ t'.rlpEncoded = [])) := by
  cases src with
  | nil => cases h
  | cons b bs =>
    simp only [decodeTransaction] at h
    split at h
    · next htyped =>
      simp only [bind_eq_ok, rejectIf_eq_ok, pure_eq_ok, Prod.mk.injEq, Prod.exists] at h
      obtain ⟨-, -, type, htype, t₁, items, sig, r, hdec, rfl, rfl⟩ := h
      obtain ⟨hb, hl, hs⟩ := typedOfByte_ok htype
      obtain ⟨ht, hrlp, hsrc, -, hd, hhd, hrest⟩ := eip2718Decode_spec hdec hl hs
      have hl' : t₁.type ≠ .legacy := by rw [ht]; exact hl
      refine ⟨?_, ?_, .inr ⟨hl', hrlp⟩⟩
      · rw [Transaction.encode_typed hl', ht, hb, hsrc]
        rfl
      · simp only [trailingBytes, if_pos htyped, hhd, hrest]
    · next htyped =>
      simp only [bind_eq_ok, Prod.exists] at h
      obtain ⟨hd, view, hhd, h⟩ := h
      split at h
      case isTrue hl =>
        obtain ⟨ht, henc, hrlp, -, hdrop, hrest⟩ := decodeLegacy_spec hhd hl h
        refine ⟨henc, ?_, .inl ⟨ht, hrest rfl, hrlp⟩⟩
        simp only [trailingBytes, if_neg htyped, hhd, hdrop]
      case isFalse hl =>
        simp at h

end Zilkworm.Types
