/-
# What each pass of `sanitize` does

One specification per pass: the ranges it writes, as a frame, and what it leaves there.
A record is *ready* when its flags are reset, its cached leaf is the encoding of its own
fields, its slots ascend and start from their initial values, and its code is bound to an
entry of the code store.
-/
import Zilkworm.Witness.Sanitize

namespace Zilkworm.Witness

open List Lib Rlp Zilkworm.Types

/-! ## The cached leaf fits its buffer -/

theorem lengthUint_le {w k : ℕ} (n : BitVec w) (hk : 2 ^ w ≤ 256 ^ k) (hk' : k < 56) :
    lengthUint n ≤ k + 1 := by
  unfold lengthUint
  split
  · omega
  · have h := toBigCompact_length (Nat.lt_of_lt_of_le n.isLt hk)
    have h1 : lengthOfLength (toBigCompact n.toNat).length = 1 := if_pos (by omega)
    simp only [h1]
    omega

/-- The payload of a leaf is long enough for a length byte and short enough for one. -/
theorem leaf_payload (nonce : U64) (balance : U256) :
    56 ≤ lengthUint nonce + lengthUint balance + (32 + 1) + (32 + 1) ∧
      lengthUint nonce + lengthUint balance + (32 + 1) + (32 + 1) ≤ 108 := by
  have hn := lengthUint_le (k := 8) nonce (by norm_num) (by decide)
  have hb := lengthUint_le (k := 32) balance (by norm_num) (by decide)
  omega

theorem encodeAccountInto_length {nonce : U64} {balance : U256} {codeHash storageRoot : Bytes}
    (hc : codeHash.length = 32) (hr : storageRoot.length = 32) :
    (encodeAccountInto nonce balance codeHash storageRoot).1.length ≤ 110 := by
  obtain ⟨-, hp⟩ := leaf_payload nonce balance
  have hl : (toBigCompact (lengthUint nonce + lengthUint balance + (32 + 1) + (32 + 1))).length ≤ 1 :=
    toBigCompact_length (by omega)
  simp only [encodeAccountInto, length_append, length_cons, encodeUint_length, hc, hr]
  omega

/-! ## Record fields and frames -/

/-- What a record's binding looks at, as ranges relative to the record: the address, the nonce,
the balance, both hashes and the slot count. -/
structure SameFields (b b' : Bytes) (p : ℕ) : Prop where
  addr : accAddr b' p = accAddr b p
  nonce : accNonce b' p = accNonce b p
  balance : accBalance b' p = accBalance b p
  codeHash : accCodeHash b' p = accCodeHash b p
  storageRoot : accStorageRoot b' p = accStorageRoot b p
  slotCount : accSlotCount b' p = accSlotCount b p

theorem SameFields.trans {b b' b'' : Bytes} {p : ℕ} (h : SameFields b b' p)
    (h' : SameFields b' b'' p) : SameFields b b'' p :=
  ⟨h'.addr.trans h.addr, h'.nonce.trans h.nonce, h'.balance.trans h.balance,
    h'.codeHash.trans h.codeHash, h'.storageRoot.trans h.storageRoot, h'.slotCount.trans h.slotCount⟩

theorem SameFields.leaf {b b' : Bytes} {p : ℕ} (h : SameFields b b' p) : accLeaf b' p = accLeaf b p := by
  rw [accLeaf, accLeaf, h.nonce, h.balance, h.codeHash, h.storageRoot]

/-- A write that stays off the fields leaves them. -/
theorem sameFields_of_frame {rs : List (ℕ × ℕ)} {b b' : Bytes} (h : Frame rs b b') {p : ℕ}
    (hr : ∀ r ∈ rs, Apart p 20 r.1 r.2 ∧ Apart (p + 24) 104 r.1 r.2 ∧ Apart (p + 136) 4 r.1 r.2) :
    SameFields b b' p := by
  have haddr := fun r hm => (hr r hm).1
  have hmid : ∀ q k, p + 24 ≤ q → q + k ≤ p + 128 → ∀ r ∈ rs, Apart q k r.1 r.2 := by
    intro q k h1 h2 r hm
    have := (hr r hm).2.1
    unfold Apart at this ⊢
    omega
  refine ⟨h.slice_eq haddr, ?_, ?_, h.slice_eq (hmid _ _ (by omega) (by omega)),
    h.slice_eq (hmid _ _ (by omega) (by omega)), h.u32At_eq fun r hm => (hr r hm).2.2⟩
  · rw [accNonce, accNonce, h.u64At_eq (hmid _ _ (by omega) (by omega))]
  · rw [accBalance, accBalance, h.slice_eq (hmid _ _ (by omega) (by omega))]

/-! ## The slot loop -/

/-- One round of the slot loop writes the current value of its slot: no key and no initial value of
any slot. -/
theorem slotWrite_spec {p s : ℕ} {b : Bytes} (hb : slotPos p (s + 1) ≤ b.length) :
    (slotInitial b (slotPos p s)).length = 32 ∧
    Frame [(slotPos p s + 64, 32)] b (writeAt b (slotPos p s + 64) (slotInitial b (slotPos p s))) ∧
    ∀ j, slotKey (writeAt b (slotPos p s + 64) (slotInitial b (slotPos p s))) (slotPos p j) =
        slotKey b (slotPos p j) ∧
      slotInitial (writeAt b (slotPos p s + 64) (slotInitial b (slotPos p s))) (slotPos p j) =
        slotInitial b (slotPos p j) := by
  simp only [slotPos, slotSize, accountSize] at hb
  have hlen : (slotInitial b (slotPos p s)).length = 32 :=
    slice_length_of_le (by simp only [slotPos, slotSize, accountSize]; omega)
  have hf := @Frame.writeAt b (slotInitial b (slotPos p s)) (slotPos p s + 64) (by
    rw [hlen]; simp only [slotPos, slotSize, accountSize]; omega)
  rw [hlen] at hf
  refine ⟨hlen, hf, fun j => ?_⟩
  constructor <;> refine hf.slice_eq fun r hr => ?_
  all_goals
    obtain rfl := mem_singleton.mp hr
    simp only [Apart, slotPos, slotSize, accountSize]
    omega

/-- The slot loop copies initial values over current ones, for the slots it covers, and accepts
only ascending keys. -/
theorem copySlots_spec {p n s : ℕ} {b b' : Bytes} (h : copySlots p n s b = .ok b')
    (hb : slotPos p (s + n) ≤ b.length) :
    Frame [(slotPos p s, slotSize * n)] b b' ∧
    (∀ j, slotKey b' (slotPos p j) = slotKey b (slotPos p j) ∧
      slotInitial b' (slotPos p j) = slotInitial b (slotPos p j)) ∧
    (∀ j, s ≤ j → j < s + n → slotCurrent b' (slotPos p j) = slotInitial b' (slotPos p j)) ∧
    (∀ j, s ≤ j → j < s + n → 0 < j →
      slotKey b' (slotPos p (j - 1)) < slotKey b' (slotPos p j)) := by
  induction n generalizing s b with
  | zero =>
    cases h
    exact ⟨(Frame.refl _).mono (by simp), fun _ => ⟨rfl, rfl⟩, fun j h1 h2 => by omega,
      fun j h1 h2 => by omega⟩
  | succ n ih =>
    simp only [copySlots, bind_eq_ok, rejectIf_eq_ok] at h
    obtain ⟨-, hlt, h⟩ := h
    have hend : slotPos p (s + 1) ≤ slotPos p (s + (n + 1)) := by simp only [slotPos, slotSize]; omega
    obtain ⟨hlen, hf, hkeep₁⟩ := slotWrite_spec (hend.trans hb)
    rw [slotPos, slotSize, accountSize] at hb
    obtain ⟨hf', hkeep, hcur, hasc⟩ := ih h (by
      rw [hf.1]; simp only [slotPos, slotSize, accountSize]; omega)
    have hkeep₂ : ∀ j, slotKey b' (slotPos p j) = slotKey b (slotPos p j) ∧
        slotInitial b' (slotPos p j) = slotInitial b (slotPos p j) := fun j =>
      ⟨(hkeep j).1.trans (hkeep₁ j).1, (hkeep j).2.trans (hkeep₁ j).2⟩
    refine ⟨(hf.trans hf').mono ?_, hkeep₂, fun j h1 h2 => ?_, fun j h1 h2 h3 => ?_⟩
    · intro r hr
      simp only [cons_append, nil_append, mem_cons, not_mem_nil, or_false] at hr
      refine ⟨_, mem_singleton_self _, ?_⟩
      rcases hr with rfl | rfl <;> simp only [slotPos, slotSize, accountSize] <;> omega
    · rcases Nat.lt_or_ge s j with hj | hj
      · exact hcur j hj (by omega)
      · obtain rfl : j = s := by omega
        have hout : slotCurrent b' (slotPos p j) =
            slotCurrent (writeAt b (slotPos p j + 64) (slotInitial b (slotPos p j))) (slotPos p j) := by
          refine hf'.slice_eq fun r hr => ?_
          obtain rfl := mem_singleton.mp hr
          simp only [Apart, slotPos, slotSize, accountSize]
          omega
        rw [hout, (hkeep₂ j).2, slotCurrent, slice_writeAt_inside (by
          rw [hlen]; simp only [slotPos, slotSize, accountSize]; omega) le_rfl (by rw [hlen])]
        simp [slice, ← hlen]
    · rcases Nat.lt_or_ge s j with hj | hj
      · exact hasc j hj (by omega) h3
      · obtain rfl : j = s := by omega
        rw [(hkeep₂ _).1, (hkeep₂ _).1]
        by_contra hn
        exact hlt ⟨h3, hn⟩

/-! ## The walk over one record -/

theorem resetFlags_spec {b : Bytes} {p : ℕ} (hp : p + accountSize ≤ b.length) :
    Frame [(p + 20, 1), (p + 23, 1), (p + 252, 4)] b (resetFlags b p) ∧
      byteAt (resetFlags b p) (p + 20) = 0 ∧ byteAt (resetFlags b p) (p + 23) = 1 ∧
      u32At (resetFlags b p) (p + 252) = 0 := by
  simp only [accountSize] at hp
  have h₁ : p + 20 + [(0 : UInt8)].length ≤ b.length := by simp; omega
  have f₁ := Frame.writeAt h₁
  have h₂ : p + 23 + [(1 : UInt8)].length ≤ (writeAt b (p + 20) [0]).length := by
    rw [f₁.1]; simp; omega
  have f₂ := Frame.writeAt h₂
  have h₃ : p + 252 + (toLe 4 0).length ≤ (writeAt (writeAt b (p + 20) [0]) (p + 23) [1]).length := by
    rw [f₂.1, f₁.1]; simp; omega
  have f₃ := Frame.writeAt h₃
  refine ⟨(f₁.trans (f₂.trans f₃)), ?_, ?_, ?_⟩
  · rw [resetFlags, f₃.byteAt_eq (by simp [Apart]), f₂.byteAt_eq (by simp [Apart]),
      byteAt_writeAt_self (by omega)]
  · rw [resetFlags, f₃.byteAt_eq (by simp [Apart]), byteAt_writeAt_self (by rw [f₁.1]; omega)]
  · rw [resetFlags, u32At, slice_writeAt_inside h₃ le_rfl (by simp)]
    rw [Nat.sub_self]
    decide

theorem accLeaf_length {b : Bytes} {p : ℕ} (hp : p + accountSize ≤ b.length) :
    (accLeaf b p).1.length ≤ 110 := by
  simp only [accountSize] at hp
  exact encodeAccountInto_length (slice_length_of_le (by omega)) (slice_length_of_le (by omega))

theorem accLeaf_srootOff_lt {b : Bytes} {p : ℕ} : (accLeaf b p).2 < (accLeaf b p).1.length := by
  simp only [accLeaf, encodeAccountInto, length_append, length_cons]
  omega

theorem rlpIntoCache_spec {b : Bytes} {p : ℕ} (hp : p + accountSize ≤ b.length) :
    Frame [(p + 140, 112), (p + 21, 2)] b (rlpIntoCache b p) ∧
      (accRlpBuf (rlpIntoCache b p) p).take (accRlpLen (rlpIntoCache b p) p) = (accLeaf b p).1 ∧
      accRlpSrootOff (rlpIntoCache b p) p = (accLeaf b p).2 := by
  have hl := accLeaf_length hp
  have ho := accLeaf_srootOff_lt (b := b) (p := p)
  simp only [accountSize] at hp
  set leaf := (accLeaf b p).1 with hleaf
  have h₁ : p + 140 + leaf.length ≤ b.length := by omega
  have f₁ := Frame.writeAt h₁
  have h₂ : p + 21 + [UInt8.ofNat leaf.length, UInt8.ofNat (accLeaf b p).2].length ≤
      (writeAt b (p + 140) leaf).length := by
    rw [f₁.1]; simp; omega
  have f₂ := Frame.writeAt h₂
  have hdef : rlpIntoCache b p =
      writeAt (writeAt b (p + 140) leaf) (p + 21)
        [UInt8.ofNat leaf.length, UInt8.ofNat (accLeaf b p).2] :=
    rfl
  rw [hdef]
  refine ⟨(f₁.trans f₂).mono ?_, ?_, ?_⟩
  · intro r hr
    simp only [cons_append, nil_append, mem_cons, not_mem_nil, or_false] at hr
    rcases hr with rfl | rfl
    · exact ⟨(p + 140, 112), by simp, le_rfl, by simp only; omega⟩
    · exact ⟨(p + 21, 2), by simp, le_rfl, by simp⟩
  · have hlen : accRlpLen (writeAt (writeAt b (p + 140) leaf) (p + 21)
        [UInt8.ofNat leaf.length, UInt8.ofNat (accLeaf b p).2]) p = leaf.length := by
      rw [accRlpLen, byteAt_eq_slice, slice_writeAt_inside h₂ (by omega) (by simp)]
      simp [slice, UInt8.toNat_ofNat']
      omega
    rw [hlen, accRlpBuf, slice_take _ (by omega), f₂.slice_eq (by simp [Apart]),
      slice_writeAt_inside h₁ le_rfl le_rfl]
    simp [slice]
  · rw [accRlpSrootOff, byteAt_eq_slice, slice_writeAt_inside h₂ (by omega) (by simp)]
    simp [slice, UInt8.toNat_ofNat']
    omega

/-- The record's code is the payload of the code-store entry its code hash leads to. -/
def CodeBound (code : Option MphfMap) (b₀ b : Bytes) (p : ℕ) : Prop :=
  0 < accCodeStoreLen b p → ∃ m body len, code = some m ∧
    m.find b₀ 0 (hashKey8 (accCodeHash b p)) (accCodeHash b p) = some (body, len) ∧
    kPayloadOffset ≤ len ∧ accCodeStoreOffset b p = (body - m.data) % 2 ^ 32 ∧
    accCodeStoreLen b p = (len - kPayloadOffset) % 2 ^ 32

/-- The code store is the one of `b₀`: lookups in it answer alike. -/
def SameCode (code : Option MphfMap) (b₀ b : Bytes) : Prop :=
  ∀ m ∈ code, ∀ key, key.length = 32 →
    m.find b 0 (hashKey8 key) key = m.find b₀ 0 (hashKey8 key) key

theorem bindCode_spec {code : Option MphfMap} {b₀ b b' : Bytes} {p : ℕ}
    (h : bindCode code b p = .ok b') (hp : p + accountSize ≤ b.length) (hc : SameCode code b₀ b) :
    Frame [(p + 128, 8)] b b' ∧ CodeBound code b₀ b' p := by
  simp only [accountSize] at hp
  unfold bindCode at h
  split at h
  case isFalse h0 =>
    cases h
    exact ⟨(Frame.refl _).mono (by simp), fun hpos => absurd hpos h0⟩
  case isTrue h0 =>
    split at h
    · cases h
    · rename_i m body len hfind
      simp only [bind_eq_ok, rejectIf_eq_ok, pure_eq_ok] at h
      obtain ⟨-, hlen, rfl⟩ := h
      obtain ⟨m', hm', hf⟩ := Option.bind_eq_some_iff.mp hfind
      simp only [Option.map_eq_some_iff, Prod.mk.injEq] at hf
      obtain ⟨⟨body', len'⟩, hf, rfl, heq⟩ := hf
      obtain ⟨rfl, rfl⟩ := Prod.mk.inj heq
      have hw : p + 128 + (toLe 4 (body' - m'.data) ++ toLe 4 (len' - kPayloadOffset)).length ≤
          b.length := by simp; omega
      have f := Frame.writeAt hw
      have hhash : accCodeHash (writeAt b (p + 128)
          (toLe 4 (body' - m'.data) ++ toLe 4 (len' - kPayloadOffset))) p = accCodeHash b p :=
        f.slice_eq (by simp [Apart])
      refine ⟨by simpa using f, fun _ => ⟨m', body', len', hm', ?_, by omega, ?_, ?_⟩⟩
      · have hkey : (accCodeHash b p).length = 32 := slice_length_of_le (by omega)
        rw [hhash, ← hc m' hm' _ hkey, hf]
      · rw [accCodeStoreOffset, u32At, slice_writeAt_inside hw (by omega) (by simp)]
        simp only [Nat.sub_self, slice, drop_zero]
        rw [take_append_of_le_length (by simp), take_of_length_le (by simp), leNat_toLe]
        rfl
      · rw [accCodeStoreLen, u32At, slice_writeAt_inside hw (by omega) (by simp)]
        simp only [slice, show p + 132 - (p + 128) = 4 by omega]
        rw [drop_append_of_le_length (by simp), drop_of_length_le (by simp),
          nil_append, take_of_length_le (by simp), leNat_toLe]
        rfl

/-- **A record `sanitize` has prepared**, with the mark `mark`: reset flags, a cached leaf that
encodes the record's own fields, code bound to the code store of `b₀`, ascending slot keys and
slots that start from their initial values. -/
structure RecordReady (code : Option MphfMap) (b₀ b : Bytes) (p : ℕ) (mark : Bool) : Prop where
  deleted : accDeleted b p = false
  modified : accModified b p = mark
  absentReads : accAbsentReads b p = 0
  leaf : (accRlpBuf b p).take (accRlpLen b p) = (accLeaf b p).1
  srootOff : accRlpSrootOff b p = (accLeaf b p).2
  codeBound : CodeBound code b₀ b p
  ascending : ∀ s, s + 1 < accSlotCount b p →
    slotKey b (slotPos p s) < slotKey b (slotPos p (s + 1))
  current : ∀ s < accSlotCount b p, slotCurrent b (slotPos p s) = slotInitial b (slotPos p s)

/-- The bytes of the record at `p` and its slots. -/
def recordSize (b : Bytes) (p : ℕ) : ℕ := accountSize + slotSize * accSlotCount b p

/-- Writes off a record, or of its mark, keep off every part of the record beside the mark. -/
theorem apart_of_offRecord {rs : List (ℕ × ℕ)} {p n q k : ℕ}
    (hr : ∀ r ∈ rs, Apart p n r.1 r.2 ∨ r = (p + 23, 1)) (h1 : p ≤ q) (h2 : q + k ≤ p + n)
    (h3 : q + k ≤ p + 23 ∨ p + 24 ≤ q) : ∀ r ∈ rs, Apart q k r.1 r.2 := by
  intro r hmem
  rcases hr r hmem with ha | rfl
  · unfold Apart at ha ⊢; omega
  · unfold Apart; simp only; omega

/-- The record at `p` with its slots is the one it was, up to what `sanitize` itself keeps there. -/
structure SameRecord (b b' : Bytes) (p : ℕ) : Prop extends SameFields b b' p where
  slots : ∀ j < accSlotCount b p, slotKey b' (slotPos p j) = slotKey b (slotPos p j) ∧
    slotInitial b' (slotPos p j) = slotInitial b (slotPos p j)

theorem SameRecord.trans {b b' b'' : Bytes} {p : ℕ} (h : SameRecord b b' p) (h' : SameRecord b' b'' p) :
    SameRecord b b'' p := by
  refine ⟨h.toSameFields.trans h'.toSameFields, fun j hj => ?_⟩
  obtain ⟨hkey, hinit⟩ := h'.slots j (by rw [h.slotCount]; exact hj)
  exact ⟨hkey.trans (h.slots j hj).1, hinit.trans (h.slots j hj).2⟩

/-- A change elsewhere, or of the mark, keeps the record. -/
theorem sameRecord_of_frame {rs : List (ℕ × ℕ)} {b b' : Bytes} (hf : Frame rs b b') {p : ℕ}
    (hr : ∀ r ∈ rs, Apart p (recordSize b p) r.1 r.2 ∨ r = (p + 23, 1)) : SameRecord b b' p := by
  have hin := fun q k => @apart_of_offRecord rs p _ q k hr
  have hsize : accountSize ≤ recordSize b p := Nat.le_add_right _ _
  simp only [accountSize] at hsize
  refine ⟨sameFields_of_frame hf fun r hmem =>
    ⟨hin _ _ (by omega) (by omega) (by omega) r hmem, hin _ _ (by omega) (by omega) (by omega) r hmem,
      hin _ _ (by omega) (by omega) (by omega) r hmem⟩, fun j hj => ⟨?_, ?_⟩⟩ <;>
    refine hf.slice_eq (hin _ _ ?_ ?_ ?_) <;>
    simp only [recordSize, slotPos, accountSize, slotSize] at * <;>
    omega

/-- Readiness survives a change elsewhere; inside the record only the mark's byte may change. -/
theorem RecordReady.frame {code : Option MphfMap} {b₀ b b' : Bytes} {p : ℕ} {mark : Bool}
    (h : RecordReady code b₀ b p mark) {rs : List (ℕ × ℕ)} (hf : Frame rs b b')
    (hr : ∀ r ∈ rs, Apart p (recordSize b p) r.1 r.2 ∨ r = (p + 23, 1)) {mark' : Bool}
    (hm : accModified b' p = mark') : RecordReady code b₀ b' p mark' := by
  have hin := fun q k => @apart_of_offRecord rs p _ q k hr
  have hsize : accountSize ≤ recordSize b p := Nat.le_add_right _ _
  simp only [accountSize] at hsize
  have hsame := sameRecord_of_frame hf hr
  refine ⟨?_, hm, ?_, ?_, ?_, ?_, ?_, ?_⟩
  · rw [accDeleted, hf.byteAt_eq (hin _ _ (by omega) (by omega) (by omega))]; exact h.deleted
  · rw [accAbsentReads, hf.u32At_eq (hin _ _ (by omega) (by omega) (by omega))]
    exact h.absentReads
  · rw [accRlpLen, hf.byteAt_eq (hin _ _ (by omega) (by omega) (by omega)), accRlpBuf,
      hf.slice_eq (hin _ _ (by omega) (by omega) (by omega)), hsame.leaf]
    exact h.leaf
  · rw [accRlpSrootOff, hf.byteAt_eq (hin _ _ (by omega) (by omega) (by omega)), hsame.leaf]
    exact h.srootOff
  · have hl : accCodeStoreLen b' p = accCodeStoreLen b p :=
      hf.u32At_eq (hin _ _ (by omega) (by omega) (by omega))
    have ho : accCodeStoreOffset b' p = accCodeStoreOffset b p :=
      hf.u32At_eq (hin _ _ (by omega) (by omega) (by omega))
    unfold CodeBound
    rw [hl, ho, hsame.codeHash]
    exact h.codeBound
  · intro s hs
    rw [hsame.slotCount] at hs
    rw [(hsame.slots s (by omega)).1, (hsame.slots (s + 1) hs).1]
    exact h.ascending s hs
  · intro s hs
    rw [hsame.slotCount] at hs
    rw [(hsame.slots s hs).2, slotCurrent, hf.slice_eq (hin _ _ ?_ ?_ ?_)]
    · exact h.current s hs
    all_goals
      simp only [recordSize, slotPos, accountSize, slotSize] at *
      omega

/-- What comes before the slot loop stays in the account and keeps its fields. -/
theorem beforeSlots_spec {code : Option MphfMap} {b₀ b b₁ : Bytes} {p : ℕ}
    (h : bindCode code b p = .ok b₁) (hp : p + accountSize ≤ b.length) (hc : SameCode code b₀ b) :
    Frame [(p, accountSize)] b (rlpIntoCache (resetFlags b₁ p) p) ∧
      accSlotCount (rlpIntoCache (resetFlags b₁ p) p) p = accSlotCount b p ∧
      ∀ j d, slice (rlpIntoCache (resetFlags b₁ p) p) (slotPos p j + d) 32 =
        slice b (slotPos p j + d) 32 := by
  have f₁ := (bindCode_spec h hp hc).1
  have f₂ := (@resetFlags_spec b₁ p (by rw [f₁.1]; exact hp)).1
  have f₃ := (@rlpIntoCache_spec (resetFlags b₁ p) p (by rw [f₂.1, f₁.1]; exact hp)).1
  have f := f₁.trans (f₂.trans f₃)
  have hf : Frame [(p, accountSize)] b (rlpIntoCache (resetFlags b₁ p) p) := f.mono fun r hr => by
    simp only [cons_append, nil_append, mem_cons, not_mem_nil, or_false] at hr
    refine ⟨_, mem_singleton_self _, ?_⟩
    rcases hr with rfl | rfl | rfl | rfl | rfl | rfl <;> simp only [accountSize] <;> omega
  refine ⟨hf, f.u32At_eq (by simp [Apart]), fun j d => hf.slice_eq fun r hr => ?_⟩
  obtain rfl := mem_singleton.mp hr
  simp only [Apart, slotPos]
  omega

/-- **One record of the walk**: it is left ready, with its mark set, and nothing outside it
changes; a record without code is left without. -/
theorem handleAccountBody_spec {code : Option MphfMap} {b₀ b b' : Bytes} {p : ℕ}
    (h : handleAccountBody code b p = .ok b') (hp : p + recordSize b p ≤ b.length)
    (hc : SameCode code b₀ b) :
    Frame [(p, recordSize b p)] b b' ∧ SameRecord b b' p ∧ RecordReady code b₀ b' p true ∧
      (accCodeStoreLen b p = 0 → accCodeStoreLen b' p = 0) := by
  simp only [handleAccountBody, bind_eq_ok] at h
  obtain ⟨b₁, hcode, hslots⟩ := h
  have hacc : p + accountSize ≤ b.length := by simp only [recordSize] at hp; omega
  obtain ⟨f, hcount, hslots₃⟩ := beforeSlots_spec hcode hacc hc
  obtain ⟨f₁, hbound⟩ := bindCode_spec hcode hacc hc
  obtain ⟨f₂, hdel, hmark, habs⟩ := resetFlags_spec (b := b₁) (p := p) (by rw [f₁.1]; exact hacc)
  obtain ⟨f₃, hbuf, hoff⟩ := rlpIntoCache_spec (b := resetFlags b₁ p) (p := p)
    (by rw [f₂.1, f₁.1]; exact hacc)
  have hsame₂ : SameFields b (resetFlags b₁ p) p :=
    sameFields_of_frame (f₁.trans f₂) (by simp [Apart])
  have hsame₃ : SameFields (resetFlags b₁ p) (rlpIntoCache (resetFlags b₁ p) p) p :=
    sameFields_of_frame f₃ (by simp [Apart])
  set b₃ := rlpIntoCache (resetFlags b₁ p) p with hb₃
  obtain ⟨f₄, hkeep, hcur, hasc⟩ := copySlots_spec hslots (by
    rw [f.1, hcount]
    simpa [slotPos, recordSize, Nat.add_assoc] using hp)
  -- the slots lie behind the account, so the loop leaves it alone
  have hin₄ : ∀ q k, q + k ≤ p + accountSize →
      ∀ r ∈ [(slotPos p 0, slotSize * accSlotCount b₃ p)], Apart q k r.1 r.2 := by
    intro q k hq r hr
    obtain rfl := mem_singleton.mp hr
    simp only [Apart, slotPos]
    omega
  simp only [accountSize] at hin₄
  have hsame₄ : SameFields b₃ b' p := sameFields_of_frame f₄ fun r hr =>
    ⟨hin₄ _ _ (by omega) r hr, hin₄ _ _ (by omega) r hr, hin₄ _ _ (by omega) r hr⟩
  have hsame : SameFields b b' p := hsame₂.trans (hsame₃.trans hsame₄)
  have hcl : accCodeStoreLen b' p = accCodeStoreLen b₁ p := by
    rw [accCodeStoreLen, f₄.u32At_eq (hin₄ _ _ (by omega)), f₃.u32At_eq (by simp [Apart]),
      f₂.u32At_eq (by simp [Apart]), accCodeStoreLen]
  refine ⟨?_,
    ⟨hsame, fun j _ => ⟨(hkeep j).1.trans (hslots₃ j 0), (hkeep j).2.trans (hslots₃ j 32)⟩⟩, ?_,
    fun h0 => ?_⟩
  · refine (f.trans f₄).mono fun r hr => ⟨_, mem_singleton_self _, ?_⟩
    simp only [cons_append, nil_append, mem_cons, not_mem_nil, or_false, hcount] at hr
    rcases hr with rfl | rfl <;> simp only [recordSize, slotPos, accountSize] <;> omega
  · have hslotCount : accSlotCount b' p = accSlotCount b₃ p := hsame₄.slotCount
    refine ⟨?_, ?_, ?_, ?_, ?_, ?_, fun s hs => ?_, fun s hs => hcur s (by omega) (by omega)⟩
    · rw [accDeleted, f₄.byteAt_eq (hin₄ _ _ (by omega)), f₃.byteAt_eq (by simp [Apart]), hdel]
      rfl
    · rw [accModified, f₄.byteAt_eq (hin₄ _ _ (by omega)), f₃.byteAt_eq (by simp [Apart]), hmark]
      rfl
    · rw [accAbsentReads, f₄.u32At_eq (hin₄ _ _ (by omega)), f₃.u32At_eq (by simp [Apart]), habs]
    · have hl : accRlpLen b' p = accRlpLen b₃ p := by
        rw [accRlpLen, f₄.byteAt_eq (hin₄ _ _ (by omega)), accRlpLen]
      rw [hl, accRlpBuf, f₄.slice_eq (hin₄ _ _ (by omega)), hsame₄.leaf, hsame₃.leaf]
      exact hbuf
    · rw [accRlpSrootOff, f₄.byteAt_eq (hin₄ _ _ (by omega)), hsame₄.leaf, hsame₃.leaf]
      exact hoff
    · have hco : accCodeStoreOffset b' p = accCodeStoreOffset b₁ p := by
        rw [accCodeStoreOffset, f₄.u32At_eq (hin₄ _ _ (by omega)), f₃.u32At_eq (by simp [Apart]),
          f₂.u32At_eq (by simp [Apart]), accCodeStoreOffset]
      have hch : accCodeHash b' p = accCodeHash b₁ p := by
        rw [hsame.codeHash]
        exact (f₁.slice_eq (by simp [Apart])).symm
      unfold CodeBound
      rw [hcl, hco, hch]
      exact hbound
    · rw [hslotCount] at hs
      exact hasc (s + 1) (by omega) (by omega) (by omega)
  · rw [bindCode, if_neg (by omega)] at hcode
    cases hcode
    rw [hcl, h0]

end Zilkworm.Witness
