/-
# Decoding over an earlier transaction

`decode_transaction` writes into a `Transaction` that may have been decoded, executed or built by
hand before.  Here the target is the whole object, with the values it keeps once they are computed:
the recovered sender, the hash and the count of calldata bytes.  Every field is written or reset on
every path but one: the authorizations, which only a set-code transaction writes.
-/
import Zilkworm.Types.TransactionCodec

namespace Zilkworm.Types

open Lib Rlp

/-- A `Transaction` object: the transaction, and the values kept with it.  `sender_` and
`cached_hash_` count only while their marks are set. -/
structure TransactionObject where
  txn : Transaction := {}
  sender : Option Address := none
  senderRecovered : Bool := false
  dataNonZeroBytes : ℕ := 0
  cachedHash : Bytes32 := zeroBytes32
  hashComputed : Bool := false
  deriving DecidableEq

/-- `Transaction::reset`. -/
def TransactionObject.reset (o : TransactionObject) : TransactionObject :=
  { o with txn := o.txn.reset, senderRecovered := false, dataNonZeroBytes := 0, hashComputed := false }

/-- `decode_transaction` into an object. -/
def decodeTransactionInto (o : TransactionObject) (wrapping : Eip2718Wrapping) (mode : Leftover)
    (src : Bytes) :
    Except DecodingError (TransactionObject × Bytes) := do
  let (txn, rest) ← decodeTransaction o.txn wrapping mode src
  return ({ o.reset with txn := txn }, rest)

/-- What can be read of an object: the fields of the transaction with its cached views, the sender
and the hash if they are kept, and the count. -/
def TransactionObject.observe (o : TransactionObject) :
    Transaction × Option (Option Address) × Option Bytes32 × ℕ :=
  (o.txn, if o.senderRecovered then some o.sender
    else none, if o.hashComputed then some o.cachedHash else none,
    o.dataNonZeroBytes)

/-- The type byte of a serialized transaction: in front, behind a string header, or zero for a list.
-/
def typeByte (src : Bytes) : Option UInt8 :=
  match src with
  | [] => none
  | b :: rest =>
    if 0 < b ∧ b < kEmptyStringCode then some b
    else match decodeHeader (b :: rest) with
      | .error _ => none
      | .ok (h, view) => if h.list then some 0 else (view.take h.payloadLength).head?

/-- A transaction with the authorizations of another, unless it has its own. -/
def Transaction.keepAuthorizations (own : Bool) (old : List Authorization) (t : Transaction) :
    Transaction :=
  { t with authorizations := if own then t.authorizations else old }

/-- A typed transaction depends on the target's type, and keeps its authorizations and views. -/
theorem eip2718Decode_over (t : Transaction) (src : Bytes) :
    eip2718Decode t src =
      (fun r => ({ r.1.keepAuthorizations (t.type = .setCode) t.authorizations with
        rlpEncoded := t.rlpEncoded, rlpUnsigned :=
  t.rlpUnsigned }, r.2)) <$> eip2718Decode { type := t.type } src := by
  simp only [eip2718Decode, map_bind, map_pure]
  by_cases htype : t.type = .setCode
  · simp only [decodeAuthorizations, htype, if_true, Transaction.keepAuthorizations, decide_true]
  · simp only [decodeAuthorizations, htype, if_false, Transaction.keepAuthorizations, decide_false]
    rfl

theorem legacyDecodeItems_over (t : Transaction) (src : Bytes) :
    legacyDecodeItems
      { t with type := .legacy, accessList := [], maxFeePerBlobGas := 0, blobVersionedHashes := [] }
        src =
      (fun r => (r.1.keepAuthorizations false t.authorizations, r.2)) <$> legacyDecodeItems {} src := by
  simp only [legacyDecodeItems, map_bind]
  refine bind_congr fun a => bind_congr fun b => bind_congr fun c => bind_congr fun d =>
    bind_congr fun e =>
    bind_congr fun f => bind_congr fun g => ?_
  simp only [Transaction.setV]
  cases vToYParityAndChainId g.1 with
  | none => rfl
  | some p =>
    simp only [Option.map_some, map_bind, map_pure]
    rfl

theorem typedOfByte_setCode {b : UInt8} {type : TransactionType} (h : typedOfByte b = .ok type) :
    type = .setCode ↔ b = 4 := by
  unfold typedOfByte at h
  split_ifs at h with h1 h2 h3 h4
  all_goals
    cases h
    simp_all

theorem decodeLegacy_over (t : Transaction) (mode : Leftover)
    (whole : Bytes) (h : Header) (items : Bytes) :
    decodeLegacy t mode whole h items =
      (fun r => (r.1.keepAuthorizations false t.authorizations, r.2)) <$>
        decodeLegacy {} mode whole h items := by
  simp only [decodeLegacy, map_bind, map_pure]
  refine bind_congr fun _ => ?_
  rw [legacyDecodeItems_over t items, bind_map_left]
  rfl

theorem decodeWrapped_over (t : Transaction) (mode : Leftover) (h : Header) (typed : Bytes) :
    decodeWrapped t mode h typed =
      (fun r => (r.1.keepAuthorizations ((typed.take h.payloadLength).head? =
        some 4) t.authorizations, r.2)) <$>
        decodeWrapped {} mode h typed := by
  unfold decodeWrapped
  cases typed.take h.payloadLength with
  | nil => rfl
  | cons b view =>
    simp only [map_bind, map_pure]
    refine bind_congr_ok fun type htype => ?_
    rw [eip2718Decode_over { t with type := type }, bind_map_left]
    refine bind_congr fun r => bind_congr fun _ => bind_congr fun _ => ?_
    simp only [List.head?_cons, Option.some.injEq, ← typedOfByte_setCode htype]
    rfl

/-- **Decoding over a target.**  It is decoding into a fresh transaction, but for the
authorizations: a transaction of any type but set-code keeps those of the target. -/
theorem decodeTransaction_over (t : Transaction) (wrapping : Eip2718Wrapping) (mode : Leftover)
    (src : Bytes) :
    decodeTransaction t wrapping mode src =
      (fun r => (r.1.keepAuthorizations (typeByte src = some 4) t.authorizations, r.2)) <$>
        decodeTransaction {} wrapping mode src := by
  cases src with
  | nil => rfl
  | cons b rest =>
    unfold decodeTransaction typeByte
    simp only
    by_cases htyped : 0 < b ∧ b < kEmptyStringCode
    · simp only [if_pos htyped, map_bind, map_pure, Option.some.injEq]
      refine bind_congr fun _ => bind_congr_ok fun type htype => ?_
      -- the views are empty on both sides
      rw [eip2718Decode_over { t.reset with type := type }, bind_map_left]
      conv_rhs => rw [eip2718Decode_over, bind_map_left]
      refine bind_congr fun r => ?_
      simp only [← typedOfByte_setCode htype, Transaction.keepAuthorizations]
      by_cases hs : type = .setCode
      · simp only [hs, decide_true, if_true]
        rfl
      · simp only [hs, decide_false]
        rfl
    · simp only [if_neg htyped]
      rw [map_bind]
      refine bind_congr_ok fun p hd => ?_
      obtain ⟨h, view⟩ := p
      simp only [hd]
      by_cases hlist : h.list = true
      · rw [if_pos hlist, if_pos hlist, if_pos hlist, decodeLegacy_over]
        rfl
      · rw [if_neg hlist, if_neg hlist, if_neg hlist, map_bind]
        refine bind_congr fun _ => ?_
        exact decodeWrapped_over t.reset mode h view

/-- The authorizations of a freshly decoded transaction of another type than set-code. -/
theorem decodeTransaction_fresh {wrapping : Eip2718Wrapping} {mode : Leftover} {src rest : Bytes}
    {t : Transaction}
    (h : decodeTransaction {} wrapping mode src = .ok (t, rest)) (htype : typeByte src ≠ some 4) :
    t.authorizations = [] := by
  have hover := decodeTransaction_over {} wrapping mode src
  rw [h, decide_eq_false htype] at hover
  have heq := congrArg (fun r => r.1.authorizations) (Except.ok.inj hover)
  exact heq

/-- **When decoding into a used transaction leaves nothing behind.**  Exactly when the target has no
authorizations, or the bytes are those of a set-code transaction. -/
theorem decodeTransactionInto_observe_iff {o o' : TransactionObject} {wrapping : Eip2718Wrapping}
    {mode : Leftover}
    {src rest : Bytes} (h : decodeTransactionInto o wrapping mode src = .ok (o', rest)) :
    (∃ fresh, decodeTransactionInto {} wrapping mode src = .ok (fresh, rest) ∧
      o'.observe = fresh.observe) ↔
      o.txn.authorizations = [] ∨ typeByte src = some 4 := by
  simp only [decodeTransactionInto, bind_eq_ok, pure_eq_ok, Prod.mk.injEq, Prod.exists] at h ⊢
  obtain ⟨t, r, ht, rfl, rfl⟩ := h
  rw [decodeTransaction_over] at ht
  rcases hf : decodeTransaction {} wrapping mode src with e | ⟨f, r'⟩
  · rw [hf] at ht
    cases ht
  rw [hf] at ht
  obtain ⟨rfl, rfl⟩ := Prod.mk.inj (Except.ok.inj ht)
  have hobserve : ∀ fresh : TransactionObject, fresh = { ({} : TransactionObject).reset with txn := f } →
      (({ o.reset with txn := f.keepAuthorizations (typeByte src = some 4) o.txn.authorizations } :
        TransactionObject).observe = fresh.observe ↔
      (f.keepAuthorizations (typeByte src = some 4) o.txn.authorizations).authorizations =
        f.authorizations) := by
    rintro fresh rfl
    constructor
    · exact fun heq => congrArg (fun p => p.1.authorizations) heq
    · intro heq
      have htxn : f.keepAuthorizations (typeByte src = some 4) o.txn.authorizations = f := by
        dsimp only [Transaction.keepAuthorizations] at heq ⊢
        rw [heq]
      rw [htxn]
      rfl
  constructor
  · rintro ⟨fresh, ⟨t', r'', hok, hfresh, rfl⟩, heq⟩
    obtain ⟨rfl, -⟩ := Prod.mk.inj (Except.ok.inj hok)
    rw [hobserve fresh hfresh.symm] at heq
    by_cases htype : typeByte src = some 4
    · exact .inr htype
    · rw [decodeTransaction_fresh hf htype, Transaction.keepAuthorizations, decide_eq_false htype] at heq
      exact .inl heq
  · intro hcond
    refine ⟨_, ⟨f, r', rfl, rfl, rfl⟩, (hobserve _ rfl).mpr ?_⟩
    rw [Transaction.keepAuthorizations]
    rcases hcond with hnone | htype
    · by_cases htype : typeByte src = some 4
      · rw [decide_eq_true htype]
        rfl
      · rw [decide_eq_false htype, decodeTransaction_fresh hf htype]
        exact hnone
    · rw [decide_eq_true htype]
      rfl

/-- A legacy transaction with every field empty. -/
def emptyLegacyBytes : Bytes := [0xC9, 0x80, 0x80, 0x80, 0x80, 0x80, 0x80, 0x1B, 0x80, 0x80]

/-- An object that was decoded from a set-code transaction before. -/
def usedObject : TransactionObject :=
  { txn := { type := .setCode, chainId := some 1, authorizations := [⟨1, zeroAddress, 0, 0, 1, 1⟩] },
    senderRecovered := true, hashComputed := true, dataNonZeroBytes := 3 }

theorem decodeTransactionInto_observe_empty :
    decodeTransactionInto { usedObject with txn := {} } .string .prohibit emptyLegacyBytes =
        .ok ({ ({} : TransactionObject) with txn := {
          rlpEncoded := emptyLegacyBytes, rlpUnsigned := List.replicate 6 0x80 } }, []) ∧
      ∃ fresh, decodeTransactionInto {} .string .prohibit emptyLegacyBytes = .ok (fresh, []) ∧
        TransactionObject.observe { txn := {
          rlpEncoded := emptyLegacyBytes, rlpUnsigned := List.replicate 6 0x80 } } = fresh.observe := by
  have hdecode : decodeTransactionInto { usedObject with txn := {} } .string .prohibit emptyLegacyBytes =
      .ok ({ ({} : TransactionObject) with txn := {
        rlpEncoded := emptyLegacyBytes, rlpUnsigned := List.replicate 6 0x80 } }, []) := by
    decide
  exact ⟨hdecode, (decodeTransactionInto_observe_iff hdecode).mpr (.inl rfl)⟩

/-- **The authorizations of the earlier transaction stay.** -/
theorem decodeTransactionInto_keeps_authorizations :
    ∃ o' fresh, decodeTransactionInto usedObject .string .prohibit emptyLegacyBytes = .ok (o', []) ∧
      decodeTransactionInto {} .string .prohibit emptyLegacyBytes = .ok (fresh, []) ∧
      o'.txn.authorizations = usedObject.txn.authorizations ∧ fresh.txn.authorizations = [] ∧
      o'.observe ≠ fresh.observe := by
  set decoded : Transaction := { rlpEncoded := emptyLegacyBytes, rlpUnsigned := List.replicate 6 0x80 }
  refine ⟨{
    usedObject.reset with txn := { decoded with authorizations := usedObject.txn.authorizations } },
    { txn := decoded }, ?_, ?_, rfl, rfl, ?_⟩
  · decide
  · decide
  · decide

end Zilkworm.Types
