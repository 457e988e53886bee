/-
# Header and body decoding is canonical

The optional fields of a header are told from what follows it by the bytes that remain of its list,
and the items of a list are read from the whole view.  That nothing is read beyond the list is
checked at its end, and so the header and the body decoders accept exactly the encodings: of the
headers whose optional fields are present in their order, and of the bodies made of such headers and
of transactions that hold only what their type has.
-/
import Zilkworm.Rlp.Items
import Zilkworm.Types.Block
import Zilkworm.Types.TransactionRoundTrip

namespace Zilkworm.Types

open List Lib Rlp

variable {leftover n : ℕ} {b src : Bytes} {h : BlockHeader} {t : Transaction} {its : List Item}

/-! ## What may follow -/

section Leftover

variable {mode : Leftover} {rest : Bytes}

/-- Nothing follows that is not allowed to. -/
theorem not_leftover (hmode : mode = .allow ∨ rest = []) : ¬ (mode ≠ .allow ∧ rest.length ≠ 0) := by
  rintro ⟨hne, hpos⟩
  rcases hmode with hm | hr
  · exact hne hm
  · exact hpos (by rw [hr]; rfl)

/-- With no leftover allowed nothing follows. -/
theorem nil_of_prohibit (hmode : ¬ (mode ≠ .allow ∧ leftover ≠ 0)) (hend : ¬ rest.length ≠ leftover)
    (hm : mode = .prohibit) : rest = [] := by
  have hzero : leftover = 0 := by
    by_contra hpos
    exact hmode ⟨by simp [hm], hpos⟩
  rw [not_ne_iff, hzero] at hend
  exact length_eq_zero_iff.mp hend

end Leftover

/-! ## Optional fields -/

theorem decodeOptional_spec {α : Type} {dec : Decoder DecodingError α} {enc : α → Bytes}
    (h : Canonical dec enc) {rest : Bytes} {v : Option α}
    (hd : decodeOptional leftover dec src = .ok (v, rest)) :
    src = encodeOptional enc v ++ rest ∧ (v = none → src.length ≤ leftover) := by
  unfold decodeOptional at hd
  split at hd
  · simp only [bind_eq_ok, pure_eq_ok, Prod.mk.injEq, Prod.exists] at hd
    obtain ⟨a, r, ha, rfl, rfl⟩ := hd
    exact ⟨h ha, fun hv => by cases hv⟩
  · rename_i hle
    cases hd
    exact ⟨rfl, fun _ => Nat.not_lt.mp hle⟩

/-- An optional field is read back: if it is there, it is in front of what is left; if not, nothing
is. -/
theorem decodeOptional_complete {α : Type} {dec : Decoder DecodingError α} {enc : α → Bytes}
    {dom : α → Prop} (h : Complete dec enc dom) (hne : ∀ v, enc v ≠ []) {v : Option α}
    (hv : ∀ a ∈ v, dom a) {more : Bytes} (hle : leftover ≤ more.length)
    (hnone : v = none → more.length = leftover) :
    decodeOptional leftover dec (encodeOptional enc v ++ more) = .ok (v, more) := by
  cases v with
  | none =>
    show decodeOptional leftover dec more = _
    rw [decodeOptional, if_neg (by rw [hnone rfl]; exact lt_irrefl _)]
  | some a =>
    have hpos := length_pos_iff.mpr (hne a)
    show decodeOptional leftover dec (enc a ++ more) = _
    rw [decodeOptional, if_pos (by rw [length_append]; omega), h (hv a rfl) more]
    rfl

/-! ## Headers -/

/-- The three blob fields in front of what follows. -/
def encodeBlobFields (b : U64 × U64 × Bytes32) : Bytes :=
  encodeUint b.1 ++ (encodeUint b.2.1 ++ encodeFixed b.2.2)

theorem decodeBlobFields_canonical : Canonical decodeBlobFields encodeBlobFields := by
  intro src v rest h
  simp only [decodeBlobFields, bind_eq_ok, pure_eq_ok, Prod.mk.injEq, Prod.exists] at h
  obtain ⟨_, _, h₁, _, _, h₂, _, _, h₃, rfl, rfl⟩ := h
  rw [decodeUint_canonical _ _ h₁, decodeUint_canonical _ _ h₂, decodeArray_canonicalFixed 32 h₃]
  simp [encodeBlobFields]

namespace BlockHeader

/-- The items of a header that are always there. -/
def fixedItems (h : BlockHeader) : Bytes :=
  encodeFixed h.parentHash ++
    (encodeFixed h.ommersHash ++ (encodeFixed h.beneficiary ++ (encodeFixed h.stateRoot ++
    (encodeFixed h.transactionsRoot ++ (encodeFixed h.receiptsRoot ++ (encodeFixed h.logsBloom ++
      (encodeUint h.difficulty ++
        (encodeUint h.number ++ (encodeUint h.gasLimit ++ (encodeUint h.gasUsed ++
        (encodeUint h.timestamp ++ (encodeBytes h.extraData ++ (encodeFixed h.prevRandao ++
          encodeFixed h.nonce)))))))))))))

/-- The optional items of a header. -/
def optionalItems (h : BlockHeader) : Bytes :=
  encodeOptional encodeUint h.baseFeePerGas ++ (encodeOptional encodeFixed h.withdrawalsRoot ++
    (encodeOptional encodeUint h.blobGasUsed ++ (encodeOptional encodeUint h.excessBlobGas ++
      (encodeOptional encodeFixed h.parentBeaconBlockRoot ++
        (encodeOptional encodeFixed h.requestsHash ++
        (encodeOptional encodeFixed h.blockAccessListHash ++ encodeOptional encodeUint h.slotNumber))))))

end BlockHeader

theorem encodeOptional_length {α : Type} {enc : α → Bytes} {len : α → ℕ}
    (h : ∀ a, (enc a).length = len a)
    (v : Option α) : (encodeOptional enc v).length = lengthOptional len v := by
  cases v with
  | none => rfl
  | some a => exact h a

/-- `rlp_header` counts the items. -/
theorem BlockHeader.items_length (h : BlockHeader) :
    (h.fixedItems ++ h.optionalItems).length = h.rlpHeader := by
  have h32 : ∀ v : Bytes32, lengthFixed v = 32 + 1 := fun v => lengthFixed_eq v (by decide)
  have hroot : ∀ v : Option Bytes32, (encodeOptional encodeFixed v).length =
      lengthOptional (fun _ => 32 + 1) v :=
    encodeOptional_length fun v => (encodeFixed_length v).trans (h32 v)
  have h256 : ∀ v : Option U256, (encodeOptional encodeUint v).length = lengthOptional lengthUint v :=
    encodeOptional_length encodeUint_length
  have h64 : ∀ v : Option U64, (encodeOptional encodeUint v).length = lengthOptional lengthUint v :=
    encodeOptional_length encodeUint_length
  have hnonce : lengthFixed h.nonce = 8 + 1 := lengthFixed_eq h.nonce (by decide)
  simp only [fixedItems, optionalItems, length_append, encodeFixed_length, encodeUint_length,
    encodeBytes_length,
    h32, lengthFixed_address, lengthFixed_eq h.logsBloom (by decide), hnonce, hroot, h256,
    h64, rlpHeader]
  omega

theorem BlockHeader.extraData_fits (hfits : (h.fixedItems ++ h.optionalItems).length < 2 ^ 64) :
    h.extraData.length < 2 ^ 64 := by
  have := length_le_encodeBytes h.extraData
  simp only [length_append, fixedItems] at hfits
  omega

theorem BlockHeader.encode_eq (h : BlockHeader) :
    h.encode = encodeList (h.fixedItems ++ h.optionalItems) := by
  have hlist : encodeList (h.fixedItems ++ h.optionalItems) =
      encodeHeader ⟨true, h.rlpHeader⟩ ++ (h.fixedItems ++ h.optionalItems) := by
    rw [← h.items_length, encodeList]
  have hencode : h.encode = encodeHeader ⟨true, h.rlpHeader⟩ ++ (h.fixedItems ++ h.optionalItems) := by
    unfold BlockHeader.encode fixedItems optionalItems
    simp only [append_assoc]
  rw [hencode, ← hlist]

/-- The optional fields are present in their order, the three blob fields together. -/
structure BlockHeader.OptionalPrefix (h : BlockHeader) : Prop where
  withdrawalsRoot : h.baseFeePerGas = none → h.withdrawalsRoot = none
  blobGasUsed : h.withdrawalsRoot = none → h.blobGasUsed = none
  excessBlobGas : h.excessBlobGas.isSome = h.blobGasUsed.isSome
  parentBeaconBlockRoot : h.parentBeaconBlockRoot.isSome = h.blobGasUsed.isSome
  requestsHash : h.blobGasUsed = none → h.requestsHash = none
  blockAccessListHash : h.requestsHash = none → h.blockAccessListHash = none
  slotNumber : h.blockAccessListHash = none → h.slotNumber = none

/-- The optional items with the blob fields as one. -/
theorem BlockHeader.optionalItems_eq {blob : Option (U64 × U64 × Bytes32)}
    (hused : h.blobGasUsed = blob.map (·.1)) (hexcess : h.excessBlobGas = blob.map (·.2.1))
    (hroot : h.parentBeaconBlockRoot = blob.map (·.2.2)) :
    h.optionalItems = encodeOptional encodeUint h.baseFeePerGas ++
      (encodeOptional encodeFixed h.withdrawalsRoot ++
      (encodeOptional encodeBlobFields blob ++ (encodeOptional encodeFixed h.requestsHash ++
        (encodeOptional encodeFixed h.blockAccessListHash ++
          encodeOptional encodeUint h.slotNumber)))) := by
  rw [optionalItems, hused, hexcess, hroot]
  cases blob with
  | none => rfl
  | some b =>
    show _ ++ (_ ++ (encodeUint b.1 ++ (encodeUint b.2.1 ++ (encodeFixed b.2.2 ++ _)))) =
      _ ++ (_ ++ ((encodeUint b.1 ++ (encodeUint b.2.1 ++ encodeFixed b.2.2)) ++ _))
    simp only [append_assoc]

/-- **A header is read from its own encoding.** -/
theorem decodeBlockHeader_canonical (mode : Leftover) :
    Canonical (decodeBlockHeader mode) BlockHeader.encode := by
  intro src h rest hd
  simp only [decodeBlockHeader, bind_eq_ok, rejectIf_eq_ok, pure_eq_ok, Prod.mk.injEq, Prod.exists] at hd
  obtain ⟨hh, r, hhd, -, hl, -, -, _, s₁, h₁, _, s₂, h₂, _, s₃, h₃, _, s₄, h₄, _, s₅, h₅, _, s₆, h₆,
    _, s₇, h₇, _, s₈, h₈,
    _, s₉, h₉, _, s₁₀, h₁₀, _, s₁₁, h₁₁, _, s₁₂, h₁₂, _, s₁₃, h₁₃, _, s₁₄, h₁₄, _, s₁₅, h₁₅, _, s₁₆,
      h₁₆, _, s₁₇, h₁₇,
    blob, s₁₈, h₁₈, _, s₁₉, h₁₉, _, s₂₀, h₂₀, _, s₂₁, h₂₁, -, hend, hv, rfl⟩ := hd
  obtain ⟨hlen, hsrc⟩ := decodeHeader_list hhd (by simpa using hl)
  have hfixed : r = h.fixedItems ++ s₁₅ := by
    rw [decodeArray_canonicalFixed 32 h₁, decodeArray_canonicalFixed 32 h₂,
      decodeArray_canonicalFixed 20 h₃,
      decodeArray_canonicalFixed 32 h₄, decodeArray_canonicalFixed 32 h₅,
      decodeArray_canonicalFixed 32 h₆,
      decodeArray_canonicalFixed 256 h₇, decodeUint_canonical _ _ h₈, decodeUint_canonical _ _ h₉,
      decodeUint_canonical _ _ h₁₀, decodeUint_canonical _ _ h₁₁, decodeUint_canonical _ _ h₁₂,
      decodeBytes_canonical _ h₁₃, decodeArray_canonicalFixed 32 h₁₄,
        decodeArray_canonicalFixed 8 h₁₅, ← hv]
    unfold BlockHeader.fixedItems
    simp only [append_assoc]
  have hoptional : s₁₅ = h.optionalItems ++ s₂₁ := by
    rw [@BlockHeader.optionalItems_eq h blob (by rw [← hv]) (by rw [← hv]) (by rw [← hv]),
      (decodeOptional_spec (decodeUint_canonical 256 .allow) h₁₆).1,
      (decodeOptional_spec (decodeArray_canonicalFixed 32) h₁₇).1,
      (decodeOptional_spec decodeBlobFields_canonical h₁₈).1,
        (decodeOptional_spec (decodeArray_canonicalFixed 32) h₁₉).1,
      (decodeOptional_spec (decodeArray_canonicalFixed 32) h₂₀).1,
      (decodeOptional_spec (decodeUint_canonical 64 .allow) h₂₁).1, ← hv]
    simp only [append_assoc]
  have hitems : r = (h.fixedItems ++ h.optionalItems) ++ s₂₁ := by
    rw [hfixed, hoptional, append_assoc]
  have hn := payload_of_leftover hlen hitems (by simpa using hend)
  rw [BlockHeader.encode_eq, encodeList, ← hn, append_assoc, ← hitems]
  exact hsrc

theorem decodeBlobFields_complete : Complete decodeBlobFields encodeBlobFields fun _ => True := by
  intro b _ rest
  simp only [decodeBlobFields, encodeBlobFields, append_assoc, decodeUint_64, decodeBytes32, ok_bind]
  rfl

/-- The blob fields of a header, which are all there or all missing. -/
theorem BlockHeader.OptionalPrefix.blob (hp : h.OptionalPrefix) :
    ∃ blob : Option (U64 × U64 × Bytes32), h.blobGasUsed = blob.map (·.1) ∧
      h.excessBlobGas = blob.map (·.2.1) ∧
      h.parentBeaconBlockRoot = blob.map (·.2.2) := by
  have hexcess := hp.excessBlobGas
  have hroot := hp.parentBeaconBlockRoot
  cases hused : h.blobGasUsed with
  | none =>
    rw [hused, Option.isSome_none, Option.isSome_eq_false_iff,
      Option.isNone_iff_eq_none] at hexcess hroot
    exact ⟨none, rfl, hexcess, hroot⟩
  | some a =>
    rw [hused, Option.isSome_some] at hexcess hroot
    obtain ⟨b, hb⟩ := Option.isSome_iff_exists.mp hexcess
    obtain ⟨c, hc⟩ := Option.isSome_iff_exists.mp hroot
    exact ⟨some (a, b, c), rfl, hb, hc⟩

/-- A missing optional field with nothing behind it. -/
theorem encodeOptional_append_none {α : Type} {enc : α → Bytes} {v : Option α} {more rest : Bytes}
    (hv : v = none) (hmore : more = rest) : encodeOptional enc v ++ more = rest := by
  rw [hv, hmore]
  rfl

/-- **A header decodes back.** -/
theorem decodeBlockHeader_ok (hp : h.OptionalPrefix) (hfits : h.encode.length < 2 ^ 64)
    {mode : Leftover} {rest : Bytes} (hmode : mode = .allow ∨ rest = []) :
    decodeBlockHeader mode (h.encode ++ rest) = .ok (h, rest) := by
  obtain ⟨blob, hused, hexcess, hroot⟩ := hp.blob
  rw [BlockHeader.encode_eq] at hfits ⊢
  have hlen := length_lt_of_encodeList hfits
  have hbytes : ∀ more, decodeBytes .allow (encodeBytes h.extraData ++ more) = .ok (h.extraData, more) :=
    fun more => decodeBytes_ok (BlockHeader.extraData_fits hlen) (.inl rfl)
  -- what follows each optional field
  set m₅ := encodeOptional encodeUint h.slotNumber ++ rest with hm₅
  set m₄ := encodeOptional encodeFixed h.blockAccessListHash ++ m₅ with hm₄
  set m₃ := encodeOptional encodeFixed h.requestsHash ++ m₄ with hm₃
  set m₂ := encodeOptional encodeBlobFields blob ++ m₃ with hm₂
  set m₁ := encodeOptional encodeFixed h.withdrawalsRoot ++ m₂ with hm₁
  have e₅ : h.blockAccessListHash = none →
      m₅ = rest := fun hn => encodeOptional_append_none (hp.slotNumber hn) rfl
  have e₄ : h.requestsHash = none → m₄ = rest := fun hn =>
    encodeOptional_append_none (hp.blockAccessListHash hn) (e₅ (hp.blockAccessListHash hn))
  have e₃ : blob = none → m₃ = rest := fun hn => by
    have hr := hp.requestsHash (by rw [hused, hn]; rfl)
    exact encodeOptional_append_none hr (e₄ hr)
  have e₂ : h.withdrawalsRoot = none → m₂ = rest := fun hn => by
    have hb : blob = none := by simpa [hused] using hp.blobGasUsed hn
    exact encodeOptional_append_none hb (e₃ hb)
  have e₁ : h.baseFeePerGas = none → m₁ = rest := fun hn =>
    encodeOptional_append_none (hp.withdrawalsRoot hn) (e₂ (hp.withdrawalsRoot hn))
  have hle : ∀ {α : Type} {enc : α → Bytes} {v : Option α} {more : Bytes}, rest.length ≤ more.length →
      rest.length ≤ (encodeOptional enc v ++ more).length := fun hl => by
    rw [length_append]
    exact hl.trans (Nat.le_add_left _ _)
  have hroots : Complete (decodeArray 32 .allow) encodeFixed fun _ => True := fun v _ => decodeBytes32 v
  have h64 : Complete (decodeUint 64 .allow) encodeUint fun _ => True := fun n _ => decodeUint_64 n
  have h256 : Complete (decodeUint 256 .allow) encodeUint fun _ => True := fun n _ => decodeUint_256 n
  have l₅ : rest.length ≤ m₅.length := hle le_rfl
  have l₄ : rest.length ≤ m₄.length := hle l₅
  have l₃ : rest.length ≤ m₃.length := hle l₄
  have l₂ : rest.length ≤ m₂.length := hle l₃
  have o₁ : decodeOptional rest.length (decodeUint 256 .allow)
      (encodeOptional encodeUint h.baseFeePerGas ++ m₁) =
      .ok (h.baseFeePerGas, m₁) :=
    decodeOptional_complete h256 encodeUint_ne_nil (fun _ _ => trivial) (hle l₂) fun hn => by rw [e₁ hn]
  have o₂ : decodeOptional rest.length (decodeArray 32 .allow) m₁ = .ok (h.withdrawalsRoot, m₂) :=
    decodeOptional_complete hroots encodeFixed_ne_nil (fun _ _ => trivial) l₂ fun hn => by rw [e₂ hn]
  have o₃ : decodeOptional rest.length decodeBlobFields m₂ = .ok (blob, m₃) :=
    decodeOptional_complete decodeBlobFields_complete
      (fun b => append_ne_nil_of_left_ne_nil (encodeUint_ne_nil _) _) (fun _ _ => trivial) l₃
      fun hn => by rw [e₃ hn]
  have o₄ : decodeOptional rest.length (decodeArray 32 .allow) m₃ = .ok (h.requestsHash, m₄) :=
    decodeOptional_complete hroots encodeFixed_ne_nil (fun _ _ => trivial) l₄ fun hn => by rw [e₄ hn]
  have o₅ : decodeOptional rest.length (decodeArray 32 .allow) m₄ = .ok (h.blockAccessListHash, m₅) :=
    decodeOptional_complete hroots encodeFixed_ne_nil (fun _ _ => trivial) l₅ fun hn => by rw [e₅ hn]
  have o₆ : decodeOptional rest.length (decodeUint 64 .allow) m₅ = .ok (h.slotNumber, rest) :=
    decodeOptional_complete h64 encodeUint_ne_nil (fun _ _ => trivial) le_rfl fun _ => rfl
  have hsrc : h.fixedItems ++ h.optionalItems ++ rest =
      h.fixedItems ++ (encodeOptional encodeUint h.baseFeePerGas ++ m₁) := by
    rw [BlockHeader.optionalItems_eq hused hexcess hroot]
    simp only [hm₁, hm₂, hm₃, hm₄, hm₅, append_assoc]
  have hleft : (h.fixedItems ++ h.optionalItems ++ rest).length -
      (h.fixedItems ++ h.optionalItems).length =
      rest.length := by
    rw [length_append]
    omega
  unfold decodeBlockHeader
  rw [decodeHeader_encodeList rest hlen, ok_bind]
  dsimp only
  rw [hleft, hsrc]
  have hbloom := decodeFixed_allow (show 256 < 2 ^ 64 by decide) h.logsBloom
  have hnonce := decodeFixed_allow (show 8 < 2 ^ 64 by decide) h.nonce
  simp only [BlockHeader.fixedItems, append_assoc, decodeBytes32, decodeAddress, hbloom, hnonce,
    decodeUint_256,
    decodeUint_64, hbytes, o₁, o₂, o₃, o₄, o₅, o₆, ok_bind, bind_eq_ok, rejectIf_eq_ok, pure_eq_ok]
  refine ⟨(), Bool.noConfusion, (), not_leftover hmode, (), fun h => h rfl, ?_⟩
  rw [← hused, ← hexcess, ← hroot]

/-- What an accepted header looks like: its optional fields are in order, and with no leftover
allowed nothing follows. -/
theorem decodeBlockHeader_shape {mode : Leftover} {rest : Bytes}
    (hd : decodeBlockHeader mode src = .ok (h, rest)) :
    h.OptionalPrefix ∧ (mode = .prohibit → rest = []) := by
  have hskip :
      ∀ {α : Type} {leftover : ℕ} {dec : Decoder DecodingError α} {src rest : Bytes} {v : Option α},
      src.length ≤ leftover → decodeOptional leftover dec src = .ok (v, rest) → v = none ∧
      rest = src := by
    intro α leftover dec src rest v hle hdec
    rw [decodeOptional, if_neg (Nat.not_lt.mpr hle)] at hdec
    cases hdec
    exact ⟨rfl, rfl⟩
  have hnone :
      ∀ {α : Type} {leftover : ℕ} {dec : Decoder DecodingError α} {src rest : Bytes} {v : Option α},
      decodeOptional leftover dec src = .ok (v, rest) → v = none → src.length ≤ leftover ∧
      rest = src := by
    intro α leftover dec src rest v hdec hv
    unfold decodeOptional at hdec
    split at hdec
    · simp only [bind_eq_ok, pure_eq_ok, Prod.mk.injEq, Prod.exists] at hdec
      obtain ⟨a, r, -, rfl, -⟩ := hdec
      cases hv
    · rename_i hle
      cases hdec
      exact ⟨Nat.not_lt.mp hle, rfl⟩
  unfold decodeBlockHeader at hd
  obtain ⟨⟨hh, r⟩, -, hd⟩ := bind_eq_ok.mp hd
  obtain ⟨-, -, hd⟩ := bind_eq_ok.mp hd
  obtain ⟨_, hmode, hd⟩ := bind_eq_ok.mp hd
  iterate 15 obtain ⟨⟨_, _⟩, -, hd⟩ := bind_eq_ok.mp hd
  simp only [bind_eq_ok, rejectIf_eq_ok, pure_eq_ok, Prod.mk.injEq, Prod.exists] at hd hmode
  obtain ⟨bf, s₁, h₁, wr, s₂, h₂, blob, s₃, h₃, rh, s₄, h₄, bal, s₅, h₅, sn, s₆, h₆, -, hend,
    rfl, rfl⟩ := hd
  refine ⟨⟨fun hn => ?_, fun hn => ?_, by simp, by simp, fun hn => ?_, fun hn => ?_, fun hn => ?_⟩,
    fun hm => ?_⟩
  · obtain ⟨hle, rfl⟩ := hnone h₁ hn
    exact (hskip hle h₂).1
  · obtain ⟨hle, rfl⟩ := hnone h₂ hn
    rw [(hskip hle h₃).1]
    rfl
  · obtain ⟨hle, rfl⟩ := hnone h₃ (by simpa using hn)
    exact (hskip hle h₄).1
  · obtain ⟨hle, rfl⟩ := hnone h₄ hn
    exact (hskip hle h₅).1
  · obtain ⟨hle, rfl⟩ := hnone h₅ hn
    exact (hskip hle h₆).1
  · exact nil_of_prohibit hmode hend hm

/-! ## Withdrawals -/

/-- The items of a withdrawal. -/
def Withdrawal.items (w : Withdrawal) : Bytes :=
  encodeUint w.index ++ (encodeUint w.validatorIndex ++ (encodeFixed w.address ++ encodeUint w.amount))

theorem Withdrawal.items_length (w : Withdrawal) : w.items.length = w.header := by
  simp only [Withdrawal.items, length_append, encodeUint_length, encodeFixed_length, Withdrawal.header]
  omega

theorem Withdrawal.encode_eq (w : Withdrawal) : w.encode = encodeList w.items := by
  rw [encodeList, w.items_length]
  simp [Withdrawal.encode, Withdrawal.items]

theorem Withdrawal.encode_length (w : Withdrawal) : w.encode.length = w.length := by
  rw [Withdrawal.encode_eq, encodeList_length, w.items_length, Withdrawal.length]

theorem decodeWithdrawal_canonical : Canonical (decodeWithdrawal .allow) Withdrawal.encode := by
  rw [funext Withdrawal.encode_eq]
  refine decodeFixed_canonical ?_ .allow
  intro src w rest h
  simp only [bind_eq_ok, pure_eq_ok, Prod.mk.injEq, Prod.exists] at h
  obtain ⟨_, _, h₁, _, _, h₂, _, _, h₃, _, _, h₄, rfl, rfl⟩ := h
  rw [decodeUint_canonical _ _ h₁, decodeUint_canonical _ _ h₂, decodeArray_canonicalFixed 20 h₃,
    decodeUint_canonical _ _ h₄]
  simp [Withdrawal.items]

theorem decodeWithdrawal_complete :
    Complete (decodeWithdrawal .allow) Withdrawal.encode fun w => w.encode.length < 2 ^ 64 := by
  intro w hfits rest
  rw [Withdrawal.encode_eq] at hfits ⊢
  refine @decodeFixed_complete _ _ _ (fun _ => True) (fun w _ rest => ?_) _
    ⟨trivial, length_lt_of_encodeList hfits⟩ rest
  simp only [Withdrawal.items, append_assoc, decodeUint_64, decodeAddress, ok_bind]
  rfl

/-! ## Bodies -/

/-- `BlockBody`. -/
structure BlockBody where
  transactions : List Transaction := []
  ommers : List BlockHeader := []
  withdrawals : Option (List Withdrawal) := none
  deriving DecidableEq

/-- The payload length `rlp_header_body` computes. -/
def BlockBody.rlpHeaderBody (b : BlockBody) : ℕ :=
  lengthVector (fun t => t.length true) b.transactions + lengthVector BlockHeader.length b.ommers +
    lengthOptional (lengthVector Withdrawal.length) b.withdrawals

/-- `encode(Bytes&, const BlockBody&)`. -/
def BlockBody.encode (b : BlockBody) : Bytes :=
  encodeHeader ⟨true, b.rlpHeaderBody⟩ ++
    encodeVector (fun t => t.length true) (fun t => t.encode true) b.transactions ++
    encodeVector BlockHeader.length BlockHeader.encode b.ommers ++
    encodeOptional (encodeVector Withdrawal.length Withdrawal.encode) b.withdrawals

/-- `decode(ByteView&, BlockBody&)`. -/
def decodeBlockBody (mode : Leftover) (src : Bytes) : Except DecodingError (BlockBody × Bytes) := do
  let (h, src) ← decodeHeader src
  rejectIf (h.list = false) .unexpectedString
  let leftover := src.length - h.payloadLength
  rejectIf (mode ≠ .allow ∧ leftover ≠ 0) .inputTooLong
  let (transactions, src) ← decodeVector (decodeTransaction {} .string .allow) .allow src
  let (ommers, src) ← decodeVector (decodeBlockHeader .allow) .allow src
  let (withdrawals, src) ←
    decodeOptional leftover (decodeVector (decodeWithdrawal .allow) .allow) src
  rejectIf (src.length ≠ leftover) .unexpectedListElements
  return (⟨transactions, ommers, withdrawals⟩, src)

theorem Transaction.encode_length (hs : t.type ≠ .system) :
    (t.encode true).length = t.length true := by
  by_cases hl : t.type = .legacy
  · rw [Transaction.encode_legacy hl, encodeList_length, Transaction.legacyItems_length hl,
      Transaction.length]
    simp [hl]
  · have hlen := Transaction.typed_items_length hl hs
    simp only [Transaction.encode, Transaction.length, Transaction.eip2718EncodeForSigning, hl,
      length_append,
      length_cons, encodeHeader_length, encodeBool_length, ne_eq, not_false_eq_true, and_self,
      if_true, if_false]
    omega

theorem lengthItems_eq_of_mem {α : Type} {len : α → ℕ} {enc : α → Bytes} {v : List α}
    (h : ∀ x ∈ v, (enc x).length = len x) : lengthItems len v = (v.flatMap enc).length := by
  rw [lengthItems, length_flatMap]
  exact congrArg List.sum (map_congr_left fun x hx => (h x hx).symm)

/-- The header of a vector counts its items. -/
theorem encodeVector_eq_of_mem {α : Type} {len : α → ℕ} {enc : α → Bytes} {v : List α}
    (h : ∀ x ∈ v, (enc x).length = len x) : encodeVector len enc v = encodeList (v.flatMap enc) := by
  rw [encodeVector, lengthItems_eq_of_mem h, encodeList]

theorem BlockHeader.encode_length (h : BlockHeader) : h.encode.length = h.length := by
  rw [BlockHeader.encode_eq, encodeList_length, h.items_length, BlockHeader.length]

/-- The items of a body. -/
def BlockBody.items (b : BlockBody) : Bytes :=
  encodeList (b.transactions.flatMap fun t => t.encode true) ++
    (encodeList (b.ommers.flatMap BlockHeader.encode) ++
      encodeOptional (fun ws => encodeList (ws.flatMap Withdrawal.encode)) b.withdrawals)

theorem BlockBody.encode_eq {b : BlockBody} (hs : ∀ t ∈ b.transactions, t.type ≠ .system) :
    b.encode = encodeList b.items := by
  have htxs := encodeVector_eq_of_mem fun t ht => Transaction.encode_length (hs t ht)
  have hommers := encodeVector_eq BlockHeader.encode_length b.ommers
  have hws : encodeOptional (encodeVector Withdrawal.length Withdrawal.encode) b.withdrawals =
      encodeOptional (fun ws => encodeList (ws.flatMap Withdrawal.encode)) b.withdrawals := by
    rw [funext (encodeVector_eq Withdrawal.encode_length)]
  have htxsLength : (encodeList (b.transactions.flatMap fun t => t.encode true)).length =
      lengthVector (fun t => t.length true) b.transactions := by
    rw [encodeList_length, lengthVector, lengthItems_eq_of_mem
      fun t ht => Transaction.encode_length (hs t ht)]
  have hlen : b.items.length = b.rlpHeaderBody := by
    rw [items, ← hommers, ← hws, length_append, length_append, htxsLength, rlpHeaderBody,
      encodeVector_length BlockHeader.encode_length,
      encodeOptional_length (encodeVector_length Withdrawal.encode_length)]
    omega
  rw [encodeList, hlen, BlockBody.encode, htxs, hommers, hws, items]
  simp only [append_assoc]

theorem rawTyped_of_string {t' : Transaction} {mode : Leftover} {rest : Bytes}
    (h : decodeTransaction t .string mode src = .ok (t', rest)) : rawTyped src = false := by
  cases src with
  | nil => rfl
  | cons b bs =>
    by_contra hraw
    have htyped : 0 < b ∧ b < kEmptyStringCode := by simpa [rawTyped] using hraw
    simp [decodeTransaction, htyped] at h

theorem decodeTransaction_string_canonical :
    Canonical (decodeTransaction {} .string .allow) fun t => t.encode true :=
  fun _ _ _ h => (decodeTransaction_wrapped h (rawTyped_of_string h)).2.1

theorem decodeVector_forall {α : Type} {dec : Decoder DecodingError α} {P : α → Prop}
    (h : ∀ src v rest, dec src = .ok (v, rest) → P v) {mode : Leftover} {rest : Bytes} {vs : List α}
    (hd : decodeVector dec mode src = .ok (vs, rest)) : ∀ v ∈ vs, P v := by
  simp only [decodeVector, bind_eq_ok, rejectIf_eq_ok, pure_eq_ok, Prod.mk.injEq, Prod.exists] at hd
  obtain ⟨_, _, -, -, -, vs', hvs, -, -, rfl, -⟩ := hd
  exact decodeAll_forall h hvs

/-- **A body is read from its own encoding**; it has no system transaction, and with no leftover
allowed nothing follows. -/
theorem decodeBlockBody_canonical {mode : Leftover} {rest : Bytes} {b : BlockBody}
    (hd : decodeBlockBody mode src = .ok (b, rest)) :
    src = b.encode ++ rest ∧ (∀ t ∈ b.transactions, t.type ≠ .system) ∧
      (mode = .prohibit → rest = []) := by
  simp only [decodeBlockBody, bind_eq_ok, rejectIf_eq_ok, pure_eq_ok, Prod.mk.injEq, Prod.exists] at hd
  obtain ⟨hh, r, hhd, -, hl, -, hmode, txs, s₁, h₁, ommers, s₂, h₂, ws, s₃, h₃, -, hend, rfl, rfl⟩ := hd
  obtain ⟨hlen, hsrc⟩ := decodeHeader_list hhd (by simpa using hl)
  have hsystem : ∀ t ∈ txs, t.type ≠ .system :=
    decodeVector_forall (fun _ _ _ h => (decodeTransaction_wrapped h (rawTyped_of_string h)).1) h₁
  have hitems : r = BlockBody.items ⟨txs, ommers, ws⟩ ++ s₃ := by
    rw [decodeVector_canonical decodeTransaction_string_canonical .allow h₁,
      decodeVector_canonical (decodeBlockHeader_canonical .allow) .allow h₂,
      (decodeOptional_spec (decodeVector_canonical decodeWithdrawal_canonical .allow) h₃).1,
        BlockBody.items]
    simp only [append_assoc]
  have hn := payload_of_leftover hlen hitems (by simpa using hend)
  refine ⟨?_, hsystem, nil_of_prohibit hmode hend⟩
  rw [BlockBody.encode_eq hsystem, encodeList, ← hn, append_assoc, ← hitems]
  exact hsrc

/-- The body with the views its transactions get when they are decoded. -/
def BlockBody.withViews (b : BlockBody) : BlockBody :=
  { b with transactions := b.transactions.map Transaction.withViews }

/-- Transactions that hold only what their types have, and ommers with their optional fields in
order. -/
structure BlockBody.Normal (b : BlockBody) : Prop where
  transactions : ∀ t ∈ b.transactions, t.Normal
  ommers : ∀ o ∈ b.ommers, o.OptionalPrefix

theorem Transaction.Normal.withViews (h : t.Normal) : t.withViews.Normal :=
  ⟨h.supported, h.chainId, h.eip155, h.sharedFee, h.accessList, h.blobs, h.authorizations⟩

theorem decodeTransaction_string_complete :
    Complete (decodeTransaction {} .string .allow) (fun t => t.encode true)
      fun t => t.Normal ∧ t.withViews = t ∧ (t.encode true).length < 2 ^ 64 := by
  rintro t ⟨ht, hviews, hfits⟩ rest
  have hdec := @decodeTransaction_complete t ht hfits .string (.inr (by simp)) .allow rest (.inl rfl)
  rwa [hviews] at hdec

theorem transaction_encode_ne_nil (t : Transaction) : t.encode true ≠ [] := by
  unfold Transaction.encode Transaction.eip2718EncodeForSigning
  split <;> simp [encodeHeader_ne_nil]

/-- **A body decodes back.** -/
theorem decodeBlockBody_ok {b : BlockBody} (hb : b.Normal) (hfits : b.encode.length < 2 ^ 64)
    {mode : Leftover} {rest : Bytes} (hmode : mode = .allow ∨ rest = []) :
    decodeBlockBody mode (b.encode ++ rest) = .ok (b.withViews, rest) := by
  have hencode := BlockBody.encode_eq fun t ht => (hb.transactions t ht).supported
  rw [hencode] at hfits ⊢
  have hlen := length_lt_of_encodeList hfits
  simp only [BlockBody.items, length_append] at hlen
  -- the three lists in order, the last one if it is there
  set m₂ := encodeOptional (fun ws => encodeList (ws.flatMap Withdrawal.encode)) b.withdrawals ++
    rest with hm₂
  set m₁ := encodeList (b.ommers.flatMap BlockHeader.encode) ++ m₂ with hm₁
  have h₁ : decodeVector (decodeTransaction {} .string .allow) .allow
      (encodeList (b.transactions.flatMap fun t => t.encode true) ++ m₁) =
      .ok (b.withViews.transactions, m₁) := by
    have hpayload := length_lt_of_encodeList
      (show (encodeList (b.transactions.flatMap fun t => t.encode true)).length < 2 ^ 64 by omega)
    have hviews : (b.transactions.flatMap fun t => t.encode true) =
        b.withViews.transactions.flatMap fun t => t.encode true := by
      rw [BlockBody.withViews, flatMap_map]
      rfl
    have hdom : ∀ t ∈ b.withViews.transactions, t.Normal ∧ t.withViews = t ∧
        (t.encode true).length < 2 ^ 64 := by
      intro t ht
      obtain ⟨t', ht', rfl⟩ := mem_map.mp ht
      have hfits' : (t'.encode true).length < 2 ^ 64 := fits_of_mem hpayload ht'
      exact ⟨(hb.transactions t' ht').withViews, rfl, hfits'⟩
    rw [hviews] at hpayload ⊢
    exact decodeVector_complete decodeTransaction_string_complete transaction_encode_ne_nil
      ⟨hdom, hpayload⟩ m₁
  have h₂ : decodeVector (decodeBlockHeader .allow) .allow m₁ = .ok (b.ommers, m₂) := by
    have hpayload := length_lt_of_encodeList
      (show (encodeList (b.ommers.flatMap BlockHeader.encode)).length < 2 ^ 64 by omega)
    have hheader : Complete (decodeBlockHeader .allow) BlockHeader.encode
        fun h => h.OptionalPrefix ∧ h.encode.length < 2 ^ 64 :=
      fun h hh rest => decodeBlockHeader_ok hh.1 hh.2 (.inl rfl)
    exact decodeVector_complete hheader
      (fun h => by rw [BlockHeader.encode_eq]; exact encodeList_ne_nil _)
      ⟨fun o ho => ⟨hb.ommers o ho, fits_of_mem hpayload ho⟩, hpayload⟩ m₂
  have h₃ : decodeOptional rest.length (decodeVector (decodeWithdrawal .allow) .allow) m₂ =
      .ok (b.withdrawals, rest) := by
    refine decodeOptional_complete
      (decodeVector_complete decodeWithdrawal_complete
      fun w => by rw [Withdrawal.encode_eq]; exact encodeList_ne_nil _)
      (fun ws => encodeList_ne_nil _) (fun ws hws => ?_) le_rfl fun _ => rfl
    rw [Option.mem_def] at hws
    rw [hws] at hlen
    have hpayload := length_lt_of_encodeList
      (show (encodeList (ws.flatMap Withdrawal.encode)).length < 2 ^ 64 by
        have : (encodeOptional (fun ws => encodeList (ws.flatMap Withdrawal.encode)) (some ws)).length =
          (encodeList (ws.flatMap Withdrawal.encode)).length := rfl
        omega)
    exact ⟨fun w hw => fits_of_mem hpayload hw, hpayload⟩
  have hsrc : b.items ++ rest = encodeList (b.transactions.flatMap fun t => t.encode true) ++ m₁ := by
    simp only [BlockBody.items, hm₁, hm₂, append_assoc]
  have hleft : (b.items ++ rest).length - b.items.length = rest.length := by
    rw [length_append]
    omega
  unfold decodeBlockBody
  rw [decodeHeader_encodeList rest (length_lt_of_encodeList hfits), ok_bind]
  dsimp only
  rw [hleft, hsrc]
  simp only [h₁, h₂, h₃, ok_bind, bind_eq_ok, rejectIf_eq_ok, pure_eq_ok]
  exact ⟨(), Bool.noConfusion, (), not_leftover hmode, (), fun h => h rfl, rfl⟩

/-! ## The number of items -/

/-- A sequence of `n` items. -/
def IsItems (n : ℕ) (bytes : Bytes) : Prop := ∃ its : List Item, its.length = n ∧
    bytes = (its.map Item.encode).flatten

theorem IsItems.append {m : ℕ} {a : Bytes} (ha : IsItems n a) (hb : IsItems m b) :
    IsItems (n + m) (a ++ b) := by
  obtain ⟨its, hn, rfl⟩ := ha
  obtain ⟨its', hm, rfl⟩ := hb
  exact ⟨its ++ its', by rw [length_append, hn, hm], by rw [map_append, flatten_append]⟩

theorem isItems_one (it : Item) : IsItems 1 it.encode := ⟨[it], rfl, by simp⟩

theorem isItems_bytes (h : b.length < 2 ^ 64) :
    IsItems 1 (encodeBytes b) := isItems_one ⟨false, b, h⟩

theorem isItems_list (h : b.length < 2 ^ 64) : IsItems 1 (encodeList b) := isItems_one ⟨true, b, h⟩

theorem isItems_fixed (v : FixedBytes n) (hn : n < 2 ^ 64) : IsItems 1 (encodeFixed v) :=
  isItems_bytes (by rw [v.2]; exact hn)

theorem isItems_uint {k : ℕ} (n : BitVec (8 * k)) (hk : k < 2 ^ 64) : IsItems 1 (encodeUint n) := by
  have hn : n.toNat < 256 ^ k := by
    have := n.isLt
    rwa [Nat.pow_mul] at this
  rw [encodeUint_eq]
  exact isItems_bytes ((toBigCompact_length hn).trans_lt hk)

theorem isItems_u256 (n : U256) : IsItems 1 (encodeUint n) := @isItems_uint 32 n (by decide)

theorem isItems_u64 (n : U64) : IsItems 1 (encodeUint n) := @isItems_uint 8 n (by decide)

theorem isItems_bytes32 (v : Bytes32) : IsItems 1 (encodeFixed v) := isItems_fixed v (by decide)

theorem isItems_optional {α : Type} {enc : α → Bytes} (h : ∀ a, IsItems n (enc a)) (v : Option α) :
    IsItems (if v.isSome then n else 0) (encodeOptional enc v) := by
  cases v with
  | none => exact ⟨[], rfl, rfl⟩
  | some a => exact h a

/-- A byte string is at most one sequence of items. -/
theorem isItems_unique (h : IsItems n (its.map Item.encode).flatten) : its.length = n := by
  obtain ⟨its', rfl, heq⟩ := h
  induction its generalizing its' with
  | nil =>
    cases its' with
    | nil => rfl
    | cons it its' =>
      rw [map_cons, flatten_cons] at heq
      exact absurd (append_eq_nil_iff.mp heq.symm).1 it.encode_ne_nil
  | cons it its ih =>
    cases its' with
    | nil =>
      rw [map_cons, flatten_cons] at heq
      exact absurd (append_eq_nil_iff.mp heq).1 it.encode_ne_nil
    | cons it' its' =>
      rw [map_cons, flatten_cons, map_cons, flatten_cons] at heq
      have hnext := nextItem_encode it (its.map Item.encode).flatten
      rw [heq, nextItem_encode, Option.some.injEq, Prod.mk.injEq] at hnext
      rw [length_cons, length_cons, ih its' hnext.2.symm]

theorem BlockHeader.isItems_fixedItems (hdata : h.extraData.length < 2 ^ 64) :
    IsItems 15 h.fixedItems := by
  unfold fixedItems
  exact (isItems_bytes32 _).append ((isItems_bytes32 _).append ((isItems_fixed _ (by decide)).append
    ((isItems_bytes32 _).append ((isItems_bytes32 _).append ((isItems_bytes32 _).append
      ((isItems_fixed _ (by decide)).append
        ((isItems_u256 _).append ((isItems_u64 _).append ((isItems_u64 _).append
        ((isItems_u64 _).append
          ((isItems_u64 _).append ((isItems_bytes hdata).append ((isItems_bytes32 _).append
          (isItems_fixed _ (by decide)))))))))))))))

theorem isItems_blobFields (b : U64 × U64 × Bytes32) : IsItems 3 (encodeBlobFields b) :=
  (isItems_u64 _).append ((isItems_u64 _).append (isItems_bytes32 _))

/-- The optional fields are none, or the first, the first two, and then the three blob fields at
once. -/
theorem BlockHeader.OptionalPrefix.isItems (hp : h.OptionalPrefix) :
    ∃ n ∈ [0, 1, 2, 5, 6, 7, 8], IsItems n h.optionalItems := by
  obtain ⟨blob, hused, hexcess, hroot⟩ := hp.blob
  have hitems := (isItems_optional isItems_u256 h.baseFeePerGas).append
    ((isItems_optional isItems_bytes32 h.withdrawalsRoot).append
      ((isItems_optional isItems_blobFields blob).append
      ((isItems_optional isItems_bytes32 h.requestsHash).append
        ((isItems_optional isItems_bytes32 h.blockAccessListHash).append
        (isItems_optional isItems_u64 h.slotNumber)))))
  rw [← BlockHeader.optionalItems_eq hused hexcess hroot] at hitems
  refine ⟨_, ?_, hitems⟩
  have hblob : h.withdrawalsRoot = none →
      blob = none := fun hn => by simpa [hused] using hp.blobGasUsed hn
  have hrequests : blob = none →
      h.requestsHash = none := fun hn => hp.requestsHash (by rw [hused, hn]; rfl)
  cases hb : h.baseFeePerGas with
  | none =>
    have hw := hp.withdrawalsRoot hb
    have hr := hrequests (hblob hw)
    have ha := hp.blockAccessListHash hr
    simp [hw, hblob hw, hr, ha, hp.slotNumber ha]
  | some =>
    cases hw : h.withdrawalsRoot with
    | none =>
      have hr := hrequests (hblob hw)
      have ha := hp.blockAccessListHash hr
      simp [hblob hw, hr, ha, hp.slotNumber ha]
    | some =>
      cases hbl : blob with
      | none =>
        have hr := hrequests hbl
        have ha := hp.blockAccessListHash hr
        simp [hr, ha, hp.slotNumber ha]
      | some =>
        cases hr : h.requestsHash with
        | none =>
          have ha := hp.blockAccessListHash hr
          simp [ha, hp.slotNumber ha]
        | some =>
          cases ha : h.blockAccessListHash with
          | none => simp [hp.slotNumber ha]
          | some => cases hs : h.slotNumber <;> simp

/-- Two lists are the same list item only if their payloads are the same. -/
theorem payload_eq {payload payload' : Bytes} (hfits : payload.length < 2 ^ 64)
    (hfits' : payload'.length < 2 ^ 64)
    (h : encodeList payload = encodeList payload') : payload = payload' := by
  have hdec := decodeHeader_encodeList [] hfits
  rw [h, decodeHeader_encodeList [] hfits', append_nil, append_nil] at hdec
  exact (Prod.mk.inj (Except.ok.inj hdec)).2.symm

theorem BlockHeader.accepted_count {rest : Bytes}
    (hfits : (encodeList (its.map Item.encode).flatten).length < 2 ^ 64)
    (hd : decodeBlockHeader .prohibit (encodeList (its.map Item.encode).flatten) = .ok (h, rest)) :
    its.length ∈ [15, 16, 17, 20, 21, 22, 23] := by
  obtain ⟨hp, hrest⟩ := decodeBlockHeader_shape hd
  have hsrc := decodeBlockHeader_canonical .prohibit hd
  rw [hrest rfl, append_nil, BlockHeader.encode_eq] at hsrc
  have hfits' := length_lt_of_encodeList (hsrc ▸ hfits)
  have hpayload := payload_eq (length_lt_of_encodeList hfits) hfits' hsrc
  obtain ⟨n, hn, hitems⟩ := hp.isItems
  have hall := (BlockHeader.isItems_fixedItems (BlockHeader.extraData_fits hfits')).append hitems
  rw [← hpayload] at hall
  rw [isItems_unique hall]
  simp only [mem_cons, not_mem_nil, or_false] at hn ⊢
  omega

theorem BlockBody.accepted_count {b : BlockBody} {rest : Bytes}
    (hfits : (encodeList (its.map Item.encode).flatten).length < 2 ^ 64)
    (hd : decodeBlockBody .prohibit (encodeList (its.map Item.encode).flatten) = .ok (b, rest)) :
    its.length ∈ [2, 3] := by
  obtain ⟨hsrc, hsystem, hrest⟩ := decodeBlockBody_canonical hd
  rw [hrest rfl, append_nil, BlockBody.encode_eq hsystem] at hsrc
  have hfits' := length_lt_of_encodeList (hsrc ▸ hfits)
  have hpayload := payload_eq (length_lt_of_encodeList hfits) hfits' hsrc
  simp only [BlockBody.items, length_append] at hfits'
  have htxs : IsItems 1 (encodeList (b.transactions.flatMap fun t => t.encode true)) :=
    isItems_list (length_lt_of_encodeList (by omega))
  have hommers : IsItems 1 (encodeList (b.ommers.flatMap BlockHeader.encode)) :=
    isItems_list (length_lt_of_encodeList (by omega))
  have hws : IsItems (if b.withdrawals.isSome then 1 else 0)
      (encodeOptional (fun ws => encodeList (ws.flatMap Withdrawal.encode)) b.withdrawals) := by
    cases hw : b.withdrawals with
    | none => exact ⟨[], rfl, rfl⟩
    | some ws =>
      rw [hw] at hfits'
      exact isItems_list (length_lt_of_encodeList (lt_of_le_of_lt (Nat.le_add_left _ _)
        (lt_of_le_of_lt (Nat.le_add_left _ _) hfits')))
  have hall := htxs.append (hommers.append hws)
  rw [BlockBody.items] at hpayload
  rw [← hpayload] at hall
  rw [isItems_unique hall]
  split <;> simp

/-- **Header and body decoding is canonical.**  An accepted string is the encoding of the result,
whose hash is that of the received bytes; a header with its optional fields in order, and a body
made of such headers and of transactions that hold only what their types have, decode back; and a
list with an item too many or too few is rejected. -/
theorem block_codec_canonical (keccak256 : Bytes → Bytes32) :
    ((∀ mode src h rest, decodeBlockHeader mode src = .ok (h, rest) → src = h.encode ++ rest ∧
      h.OptionalPrefix) ∧
      (∀ src h rest, decodeBlockHeader .prohibit src = .ok (h, rest) →
        src = h.encode ∧ rest = [] ∧ h.hash keccak256 = keccak256 src) ∧
      ∀ h : BlockHeader, h.OptionalPrefix → h.encode.length < 2 ^ 64 → ∀ rest,
        decodeBlockHeader .prohibit h.encode = .ok (h, []) ∧
          decodeBlockHeader .allow (h.encode ++ rest) = .ok (h, rest)) ∧
    ((∀ mode src b rest, decodeBlockBody mode src = .ok (b, rest) → src = b.encode ++ rest) ∧
      (∀ src b rest, decodeBlockBody .prohibit src = .ok (b, rest) → src = b.encode ∧ rest = []) ∧
      ∀ b : BlockBody, b.Normal → b.encode.length < 2 ^ 64 → ∀ rest,
        decodeBlockBody .prohibit b.encode = .ok (b.withViews, []) ∧
          decodeBlockBody .allow (b.encode ++ rest) = .ok (b.withViews, rest)) ∧
    (∀ its : List Item, (encodeList (its.map Item.encode).flatten).length < 2 ^ 64 →
      (∀ h rest, decodeBlockHeader .prohibit (encodeList (its.map Item.encode).flatten) = .ok (h, rest) →
        its.length ∈ [15, 16, 17, 20, 21, 22, 23]) ∧
      ∀ b rest, decodeBlockBody .prohibit (encodeList (its.map Item.encode).flatten) = .ok (b, rest) →
        its.length ∈ [2, 3]) := by
  refine ⟨⟨fun mode src h rest hd =>
    ⟨decodeBlockHeader_canonical mode hd, (decodeBlockHeader_shape hd).1⟩,
    fun src h rest hd => ?_, fun h hp hfits rest => ⟨?_, decodeBlockHeader_ok hp hfits (.inl rfl)⟩⟩,
    ⟨fun mode src b rest hd => (decodeBlockBody_canonical hd).1, fun src b rest hd => ?_,
    fun b hb hfits rest => ⟨?_, decodeBlockBody_ok hb hfits (.inl rfl)⟩⟩,
    fun its hfits => ⟨fun h rest hd => BlockHeader.accepted_count hfits hd,
      fun b rest hd => BlockBody.accepted_count hfits hd⟩⟩
  · have hsrc := decodeBlockHeader_canonical .prohibit hd
    have hrest := (decodeBlockHeader_shape hd).2 rfl
    rw [hrest, append_nil] at hsrc
    exact ⟨hsrc, hrest, by rw [BlockHeader.hash, hsrc]⟩
  · have hok := @decodeBlockHeader_ok h hp hfits .prohibit [] (.inr rfl)
    rwa [append_nil] at hok
  · obtain ⟨hsrc, -, hrest⟩ := decodeBlockBody_canonical hd
    rw [hrest rfl, append_nil] at hsrc
    exact ⟨hsrc, hrest rfl⟩
  · have hok := @decodeBlockBody_ok b hb hfits .prohibit [] (.inr rfl)
    rwa [append_nil] at hok

/-- A body with a transaction that holds a field its type does not have. -/
def mixedBody : BlockBody := { transactions := [mixedFees] }

/-- **Such a body does not decode back.** -/
theorem decodeBlockBody_drops_priorityFee :
    ∃ b, decodeBlockBody .prohibit mixedBody.encode = .ok (b, []) ∧
      b.transactions.map (·.maxPriorityFeePerGas) = [2] ∧
        mixedBody.transactions.map (·.maxPriorityFeePerGas) = [1] := by
  refine ⟨BlockBody.withViews { transactions := [{ mixedFees with maxPriorityFeePerGas := 2 }] },
    ?_, rfl, rfl⟩
  decide

end Zilkworm.Types
