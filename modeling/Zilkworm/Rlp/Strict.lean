/-
# The RLP primitives are strict inverses

Encoder and decoder of each primitive undo each other: what the decoder accepts is the encoding of
what it returns, and the encoding of every value is accepted.  Hence an encoding has one value and
a value one encoding.  The encoders that write in place write the same bytes as those that append
to a buffer, and the guest's way of reading an integer, in machine words from the end of the
string, gives the same integer.
-/
import Mathlib.Data.List.Induction
import Zilkworm.Lib.Memory
import Zilkworm.Rlp.Checked
import Zilkworm.Rlp.Complete

namespace Zilkworm.Rlp

open List Lib

/-! ## Values are read back -/

theorem checkLeftover_ok {mode : Leftover} {src : Bytes} :
    checkLeftover mode src = .ok () ↔ mode = .allow ∨ src = [] := by
  rw [checkLeftover, rejectIf_eq_ok]
  tauto

/-- A string's encoding decodes back, with what may follow it left over. -/
theorem decodeBytes_ok {mode : Leftover} {s rest : Bytes} (hs : s.length < 2 ^ 64)
    (hmode : mode = .allow ∨ rest = []) : decodeBytes mode (encodeBytes s ++ rest) = .ok (s, rest) := by
  simp only [decodeBytes, bind_eq_ok, rejectIf_eq_ok, pure_eq_ok]
  refine ⟨_, decodeHeader_encodeBytes rest hs, (), by simp, (), ?_, ?_⟩
  · rwa [drop_left, checkLeftover_ok]
  · rw [take_left, drop_left]

theorem decodeArray_ok {n : ℕ} {mode : Leftover} {v : FixedBytes n} {rest : Bytes} (hn : n < 2 ^ 64)
    (hmode : mode = .allow ∨ rest = []) :
    decodeArray n mode (encodeBytes v.val ++ rest) = .ok (v, rest) := by
  have hlen : v.val.length = n := v.2
  have hdrop : (v.val ++ rest).drop n = rest := drop_left' hlen
  have hload : FixedBytes.load n (v.val ++ rest) = v := by
    refine Subtype.ext ?_
    rw [FixedBytes.load_val (by rw [length_append, hlen]; omega), take_left' hlen]
  simp only [decodeArray, bind_eq_ok, rejectIf_eq_ok, pure_eq_ok]
  refine ⟨_, decodeHeader_encodeBytes rest (by rwa [hlen]), (), by simp,
    (), by simpa using hlen, (), ?_, ?_⟩
  · rwa [hdrop, checkLeftover_ok]
  · rw [hdrop, hload]

/-- A number's encoding decodes back, with what may follow it left over. -/
theorem decodeUint_ok {k : ℕ} {mode : Leftover} {n : BitVec (8 * k)} {rest : Bytes} (hk : k < 2 ^ 64)
    (hmode : mode = .allow ∨ rest = []) :
    decodeUint (8 * k) mode (encodeUint n ++ rest) = .ok (n, rest) := by
  have hn : n.toNat < 256 ^ k := by
    have := n.isLt
    rwa [Nat.pow_mul] at this
  have hlen := toBigCompact_length hn
  simp only [decodeUint, bind_eq_ok, rejectIf_eq_ok, pure_eq_ok]
  refine ⟨_, by rw [encodeUint_eq]; exact decodeHeader_encodeBytes rest (by omega), (), by simp, n,
    ?_, (), ?_, ?_⟩
  · rw [take_left, fromBigCompact_ok hn, BitVec.ofNat_toNat, BitVec.setWidth_eq]
  · rwa [drop_left, checkLeftover_ok]
  · rw [drop_left]

theorem encodeBool_eq (x : Bool) : encodeBool x = encodeUint (BitVec.ofNat 64 x.toNat) := by
  cases x <;> rfl

theorem decodeBool_ok {mode : Leftover} {x : Bool} {rest : Bytes} (hmode : mode = .allow ∨ rest = []) :
    decodeBool mode (encodeBool x ++ rest) = .ok (x, rest) := by
  have huint := @decodeUint_ok 8 mode (BitVec.ofNat 64 x.toNat) rest (by decide) hmode
  rw [encodeBool_eq]
  simp only [decodeBool, bind_eq_ok, rejectIf_eq_ok, pure_eq_ok]
  exact ⟨_, huint, (), by cases x <;> simp, by cases x <;> rfl⟩

/-! ## The guest reads integers in words -/

/-- `val = (val << 8) | data[i]` over the bytes of `data`. -/
def shiftIn (w : ℕ) (data : Bytes) : BitVec w :=
  data.foldl (fun val b => (val <<< 8) ||| BitVec.ofNat w b.toNat) 0

/-- The 64-bit words of a string, from its end on; the first word is the least significant. -/
def wordsFromEnd : (fuel : ℕ) → Bytes → List (BitVec 64)
  | 0, _ => []
  | fuel + 1, data =>
    if 8 ≤ data.length then
      shiftIn 64 (data.drop (data.length - 8)) :: wordsFromEnd fuel (data.take (data.length - 8))
    else if 0 < data.length then [shiftIn 64 data]
    else []

/-- The integer whose words are filled in, `out[word_idx] = w`, into zero. -/
def ofWords (words : List (BitVec 64)) : ℕ := words.foldr (fun w out => w.toNat + 2 ^ 64 * out) 0

/-- `endian::from_big_compact` of the 32-bit guest, into an integer of `w` bits. -/
def fromBigCompactRv32 (w : ℕ) (data : Bytes) : Except DecodingError (BitVec w) :=
  if w / 8 < data.length then .error .overflow
  else match data with
    | [] => .ok 0
    | b :: _ =>
      if b = 0 then .error .leadingZero
      else if w / 8 ≤ 8 then .ok (shiftIn w data)
      else .ok (BitVec.ofNat w (ofWords (wordsFromEnd (data.length / 8 + 1) data)))

theorem beNat_concat (data : Bytes) (b : UInt8) : beNat (data ++ [b]) = 256 * beNat data + b.toNat := by
  rw [beNat, beNat, reverse_append, reverse_singleton, singleton_append, leNat, Nat.add_comm]

theorem beNat_append (a b : Bytes) : beNat (a ++ b) = beNat b + 256 ^ b.length * beNat a := by
  rw [beNat, beNat, beNat, reverse_append, leNat_append, length_reverse]

/-- Shifting bytes in one by one, as the host does, reads the big-endian number. -/
theorem shiftIn_eq (w : ℕ) (data : Bytes) : shiftIn w data = BitVec.ofNat w (beNat data) := by
  induction data using List.reverseRecOn with
  | nil => rfl
  | append_singleton data b ih =>
    rw [shiftIn] at ih
    rw [shiftIn, foldl_append, ih, beNat_concat]
    have hb : b.toNat < 2 ^ 8 := b.toNat_lt
    have hor : 256 * beNat data + b.toNat = beNat data <<< 8 ||| b.toNat := by
      rw [← Nat.shiftLeft_add_eq_or_of_lt hb, Nat.shiftLeft_eq, Nat.mul_comm]
    rw [hor]
    apply BitVec.eq_of_getLsbD_eq
    intro i hi
    show ((BitVec.ofNat w (beNat data) <<< 8) ||| BitVec.ofNat w b.toNat).getLsbD i = _
    rw [BitVec.getLsbD_or, BitVec.getLsbD_shiftLeft, BitVec.getLsbD_ofNat, BitVec.getLsbD_ofNat,
      BitVec.getLsbD_ofNat, Nat.testBit_or, Nat.testBit_shiftLeft]
    have hi' : i - 8 < w := by omega
    by_cases h8 : i < 8
    · simp [h8, hi]
    · simp [h8, hi, hi', Nat.not_lt.mp h8]

/-- Reading words from the end, as the guest does, reads the same number. -/
theorem ofWords_wordsFromEnd {fuel : ℕ} {data : Bytes} (h : data.length < 8 * fuel) :
    ofWords (wordsFromEnd fuel data) = beNat data := by
  induction fuel generalizing data with
  | zero => omega
  | succ fuel ih =>
    have hshift : ∀ s : Bytes, s.length ≤ 8 → (shiftIn 64 s).toNat = beNat s := by
      intro s hs
      have hlt := beNat_lt s
      have hpow : 256 ^ s.length ≤ 256 ^ 8 := Nat.pow_le_pow_right (by decide) hs
      rw [shiftIn_eq, BitVec.toNat_ofNat, Nat.mod_eq_of_lt (by omega)]
    unfold wordsFromEnd
    by_cases h8 : 8 ≤ data.length
    · rw [if_pos h8, ofWords, foldr_cons, ← ofWords, ih (by rw [length_take]; omega),
        hshift _ (by rw [length_drop]; omega)]
      conv_rhs => rw [← take_append_drop (data.length - 8) data, beNat_append]
      have hlast : (data.drop (data.length - 8)).length = 8 := by
        rw [length_drop]
        omega
      rw [hlast]
      norm_num
    · rw [if_neg h8]
      by_cases h0 : 0 < data.length
      · rw [if_pos h0, ofWords, foldr_cons, foldr_nil, hshift _ (by omega), Nat.mul_zero, Nat.add_zero]
      · rw [if_neg h0, eq_nil_of_length_eq_zero (Nat.eq_zero_of_not_pos h0)]
        rfl

/-- **The guest reads the same integer.** -/
theorem fromBigCompactRv32_eq (w : ℕ) (data : Bytes) :
    fromBigCompactRv32 w data = fromBigCompact w data := by
  unfold fromBigCompactRv32 fromBigCompact
  split
  · rfl
  · cases data with
    | nil => rfl
    | cons b bs =>
      dsimp only
      split
      · rfl
      · split
        · rw [shiftIn_eq]
        · rw [ofWords_wordsFromEnd (by omega)]

/-! ## Encoding in place -/

/-- `encode_into`: the memory after the bytes are written at `dst`, and how many they are. -/
def encodeInto (mem : Bytes) (dst : ℕ) (s : Bytes) : Bytes × ℕ :=
  let (mem, p) :=
    if s.length ≠ 1 ∨ kEmptyStringCode ≤ s.headD 0 then
      if s.length < 56 then (writeAt mem dst [UInt8.ofNat (0x80 + s.length)], dst + 1)
      else
        let lenBe := toBigCompact s.length
        let mem := writeAt mem dst [UInt8.ofNat (0xB7 + lenBe.length)]
        (writeAt mem (dst + 1) lenBe, dst + 1 + lenBe.length)
    else (mem, dst)
  if s ≠ [] then (writeAt mem p s, p + s.length - dst) else (mem, p - dst)

/-- `encode_into_small`, for a string of fewer than 56 bytes. -/
def encodeIntoSmall (mem : Bytes) (dst : ℕ) (s : Bytes) : Bytes × ℕ :=
  if s.length = 1 ∧ s.headD 0 < kEmptyStringCode then (writeAt mem dst [s.headD 0], 1)
  else
    let mem := writeAt mem dst [UInt8.ofNat (0x80 + s.length)]
    (if s ≠ [] then writeAt mem (dst + 1) s else mem, 1 + s.length)

/-- `encode_uint_into`. -/
def encodeUintInto {w : ℕ} (mem : Bytes) (dst : ℕ) (n : BitVec w) : Bytes × ℕ :=
  if n.toNat = 0 then (writeAt mem dst [kEmptyStringCode], 1)
  else if n.toNat < 0x80 then (writeAt mem dst [UInt8.ofNat n.toNat], 1)
  else
    let be := toBigCompact n.toNat
    let mem := writeAt mem dst [UInt8.ofNat (0x80 + be.length)]
    (writeAt mem (dst + 1) be, 1 + be.length)

/-- `encode_into` writes the string's encoding in place and returns its length. -/
theorem encodeInto_eq {mem s : Bytes} {dst : ℕ} (h : dst + (encodeBytes s).length ≤ mem.length) :
    encodeInto mem dst s = (writeAt mem dst (encodeBytes s), (encodeBytes s).length) := by
  by_cases hbare : s.length ≠ 1 ∨ kEmptyStringCode ≤ s.headD 0
  · have henc : encodeBytes s = encodeHeader ⟨false, s.length⟩ ++ s := by
      unfold encodeBytes
      split
      · rename_i b
        rw [if_neg (by simpa using hbare)]
        rfl
      · rfl
    rw [henc] at h ⊢
    have hhead : (if s.length < 56 then (writeAt mem dst [UInt8.ofNat (0x80 + s.length)], dst + 1)
        else
          (writeAt (writeAt mem dst [UInt8.ofNat (0xB7 + (toBigCompact s.length).length)]) (dst + 1)
            (toBigCompact s.length), dst + 1 + (toBigCompact s.length).length)) =
        (writeAt mem dst (encodeHeader ⟨false, s.length⟩), dst +
          (encodeHeader ⟨false, s.length⟩).length) := by
      rw [length_append] at h
      unfold encodeHeader at h ⊢
      simp only [Bool.false_eq_true, if_false] at h ⊢
      by_cases hshort : s.length < 56
      · simp only [if_pos hshort]
        rfl
      · simp only [if_neg hshort, length_cons] at h ⊢
        have htwo := @writeAt_writeAt mem [UInt8.ofNat (0xB7 + (toBigCompact s.length).length)]
          (toBigCompact s.length) dst (by rw [singleton_append, length_cons]; omega)
        rw [singleton_append] at htwo
        rw [← htwo]
        exact Prod.ext rfl (Nat.add_right_comm dst 1 _)
    simp only [encodeInto, if_pos hbare, hhead]
    by_cases hs : s = []
    · subst hs
      rw [if_neg (by simp), append_nil, Nat.add_sub_cancel_left]
    · rw [if_pos hs, writeAt_writeAt h, length_append, Nat.add_assoc, Nat.add_sub_cancel_left]
  · rw [not_or, not_ne_iff, UInt8.not_le] at hbare
    obtain ⟨b, rfl⟩ := length_eq_one_iff.mp hbare.1
    have hb : b < kEmptyStringCode := hbare.2
    have hb' : ¬ kEmptyStringCode ≤ b := UInt8.not_le.mpr hb
    simp [encodeInto, encodeBytes, hb, hb']

theorem encodeIntoSmall_eq {mem s : Bytes} {dst : ℕ} (hs : s.length < 56)
    (h : dst + (encodeBytes s).length ≤ mem.length) :
    encodeIntoSmall mem dst s = (writeAt mem dst (encodeBytes s), (encodeBytes s).length) := by
  rw [← encodeInto_eq h]
  unfold encodeIntoSmall encodeInto
  by_cases hbare : s.length = 1 ∧ s.headD 0 < kEmptyStringCode
  · obtain ⟨b, rfl⟩ := length_eq_one_iff.mp hbare.1
    have hb : b < kEmptyStringCode := hbare.2
    have hb' : ¬ kEmptyStringCode ≤ b := UInt8.not_le.mpr hb
    simp [hb, hb']
  · have hbare' : s.length ≠ 1 ∨ kEmptyStringCode ≤ s.headD 0 := by
      rw [not_and_or, UInt8.not_lt] at hbare
      exact hbare
    simp only [if_neg hbare, if_pos hbare', if_pos hs]
    split
    · congr 1
      omega
    · rename_i hnil
      rw [ne_eq, not_not] at hnil
      subst hnil
      simp

/-- `encode_uint_into` writes the number's encoding in place and returns its length. -/
theorem encodeUintInto_eq {k : ℕ} {mem : Bytes} {dst : ℕ} {n : BitVec (8 * k)} (hk : k < 56)
    (h : dst + (encodeUint n).length ≤ mem.length) :
    encodeUintInto mem dst n = (writeAt mem dst (encodeUint n), (encodeUint n).length) := by
  have hn : n.toNat < 256 ^ k := by
    have := n.isLt
    rwa [Nat.pow_mul] at this
  have hlen := toBigCompact_length hn
  unfold encodeUintInto
  unfold encodeUint at h ⊢
  split_ifs at h ⊢ with h0 h80
  · rfl
  · rfl
  · have hhead : encodeHeader ⟨false, (toBigCompact n.toNat).length⟩ =
        [UInt8.ofNat (0x80 + (toBigCompact n.toNat).length)] := by
      rw [encodeHeader, if_pos (by dsimp only; omega)]
      rfl
    dsimp only at h ⊢
    rw [hhead] at h ⊢
    rw [← writeAt_writeAt h]
    exact Prod.ext rfl (Nat.add_comm 1 _)

/-! ## Strict inverses -/

/-- A decoder and an encoder that undo each other: with nothing left over exactly the encodings of
the domain are accepted, with more behind the item exactly the item is consumed, no two strings
decode to the same value, and `len` counts the bytes written. -/
structure StrictInverse {α : Type} (dec : Leftover → Decoder DecodingError α) (enc : α → Bytes)
    (len : α → ℕ) (dom : α → Prop) : Prop where
  prohibit : ∀ src v rest, dec .prohibit src = .ok (v, rest) ↔ dom v ∧ src = enc v ∧ rest = []
  allow : ∀ src v rest, dec .allow src = .ok (v, rest) ↔ dom v ∧ src = enc v ++ rest
  unique : ∀ src src' v rest rest', dec .prohibit src = .ok (v, rest) →
    dec .prohibit src' = .ok (v, rest') →
    src = src'
  length : ∀ v, (enc v).length = len v

/-- A decoder that is canonical and complete, and looks behind the item only for what is left over.
-/
theorem StrictInverse.of {α : Type} {dec : Leftover → Decoder DecodingError α} {enc : α → Bytes}
    {len : α → ℕ} {dom : α → Prop} (hcanonical : ∀ mode, Canonical (dec mode) enc)
    (hok : ∀ mode v rest, dom v → mode = .allow ∨ rest = [] → dec mode (enc v ++ rest) = .ok (v, rest))
    (hdom : ∀ mode src v rest, dec mode src = .ok (v, rest) → dom v ∧ (mode = .allow ∨ rest = []))
    (hlen : ∀ v, (enc v).length = len v) : StrictInverse dec enc len dom := by
  have hprohibit : ∀ src v rest, dec .prohibit src = .ok (v, rest) ↔ dom v ∧ src = enc v ∧
      rest = [] := by
    intro src v rest
    constructor
    · intro h
      obtain ⟨hv, hrest⟩ := hdom _ _ _ _ h
      obtain rfl := hrest.resolve_left (by simp)
      have hsrc := hcanonical _ h
      rw [append_nil] at hsrc
      exact ⟨hv, hsrc, rfl⟩
    · rintro ⟨hv, rfl, rfl⟩
      have := hok .prohibit v [] hv (.inr rfl)
      rwa [append_nil] at this
  refine ⟨hprohibit, fun src v rest => ⟨fun h => ⟨(hdom _ _ _ _ h).1, hcanonical _ h⟩, ?_⟩,
    fun src src' v rest rest' h h' => ?_, hlen⟩
  · rintro ⟨hv, rfl⟩
    exact hok .allow v rest hv (.inl rfl)
  · exact ((hprohibit _ _ _).mp h).2.1.trans ((hprohibit _ _ _).mp h').2.1.symm

theorem decodeBytes_strict : StrictInverse decodeBytes encodeBytes lengthBytes (·.length < 2 ^ 64) := by
  refine .of decodeBytes_canonical (fun _ _ _ => decodeBytes_ok)
    (fun mode src v rest h => ?_) encodeBytes_length
  simp only [decodeBytes, bind_eq_ok, rejectIf_eq_ok, pure_eq_ok, Prod.mk.injEq, Prod.exists] at h
  obtain ⟨hd, r, hh, -, -, _, hleft, rfl, rfl⟩ := h
  refine ⟨?_, checkLeftover_ok.mp hleft⟩
  rw [length_take]
  exact (min_le_left _ _).trans_lt (decodeHeader_lt hh)

theorem decodeUint_strict {k : ℕ} (hk : k < 2 ^ 64) :
    StrictInverse (decodeUint (8 * k)) encodeUint lengthUint fun _ => True := by
  refine .of (decodeUint_canonical _) (fun _ _ _ _ => decodeUint_ok hk) (fun mode src v rest h => ?_)
    encodeUint_length
  simp only [decodeUint, bind_eq_ok, rejectIf_eq_ok, pure_eq_ok, Prod.mk.injEq, Prod.exists] at h
  obtain ⟨hd, r, -, -, -, n, -, _, hleft, rfl, rfl⟩ := h
  exact ⟨trivial, checkLeftover_ok.mp hleft⟩

theorem decodeArray_strict {n : ℕ} (hn : n < 2 ^ 64) :
    StrictInverse (decodeArray n) (fun v => encodeBytes v.val) (fun v => lengthBytes v.val)
      fun _ => True := by
  refine .of (decodeArray_canonical n) (fun _ _ _ _ => decodeArray_ok hn) (fun mode src v rest h => ?_)
    fun v => encodeBytes_length v.val
  simp only [decodeArray, bind_eq_ok, rejectIf_eq_ok, pure_eq_ok, Prod.mk.injEq, Prod.exists] at h
  obtain ⟨hd, r, -, -, -, -, -, _, hleft, rfl, rfl⟩ := h
  exact ⟨trivial, checkLeftover_ok.mp hleft⟩

theorem decodeBool_strict : StrictInverse decodeBool encodeBool (fun _ => 1) fun _ => True := by
  refine .of decodeBool_canonical (fun _ _ _ _ => decodeBool_ok)
    (fun mode src v rest h => ?_) encodeBool_length
  simp only [decodeBool, bind_eq_ok, rejectIf_eq_ok, pure_eq_ok, Prod.mk.injEq, Prod.exists] at h
  obtain ⟨i, r, hi, -, -, -, rfl⟩ := h
  have huint := @decodeUint_strict 8 (by decide)
  cases mode with
  | prohibit => exact ⟨trivial, .inr ((huint.prohibit _ _ _).mp hi).2.2⟩
  | allow => exact ⟨trivial, .inl rfl⟩

/-- A header in its one spelling, in front of `rest`: the header's encoding, or nothing in front of
a single byte below `0x80`. -/
def HeaderAt (src : Bytes) (h : Header) (rest : Bytes) : Prop :=
  h.payloadLength < 2 ^ 64 ∧ h.payloadLength ≤ rest.length ∧
    ((h = ⟨false, 1⟩ ∧ rest = src ∧ ∃ b bs, src = b :: bs ∧ b < kEmptyStringCode) ∨
      (src = encodeHeader h ++ rest ∧
        (h.list = false → h.payloadLength = 1 → ∃ c cs, rest = c :: cs ∧ ¬ c < kEmptyStringCode)))

/-- A header is accepted exactly in its one spelling. -/
theorem decodeHeader_iff (src : Bytes) (h : Header) (rest : Bytes) :
    decodeHeader src = .ok (h, rest) ↔ HeaderAt src h rest := by
  constructor
  · exact fun hd => ⟨decodeHeader_lt hd, decodeHeader_spec hd⟩
  · rintro ⟨hlt, hlen, ⟨rfl, rfl, b, bs, rfl, hb⟩ | ⟨rfl, hone⟩⟩
    · have hbyte := decodeHeader_encodeBytes (s := [b]) bs (by simp)
      rw [encodeBytes, if_pos hb] at hbyte
      exact hbyte
    · exact decodeHeader_encodeHeader hlt hlen hone

/-- The spelling is unique. -/
theorem HeaderAt.unique {src src' rest : Bytes} {h : Header} (hs : HeaderAt src h rest)
    (hs' : HeaderAt src' h rest) :
    src = src' := by
  obtain ⟨-, -, ⟨hh, rfl, b, bs, rfl, hb⟩ | ⟨rfl, hone⟩⟩ := hs
  · obtain ⟨-, -, ⟨-, heq, -⟩ | ⟨-, hone⟩⟩ := hs'
    · exact heq
    · subst hh
      obtain ⟨c, cs, heq, hc⟩ := hone rfl rfl
      cases heq
      exact absurd hb hc
  · obtain ⟨-, -, ⟨hh, rfl, b, bs, rfl, hb⟩ | ⟨rfl, -⟩⟩ := hs'
    · subst hh
      obtain ⟨c, cs, heq, hc⟩ := hone rfl rfl
      cases heq
      exact absurd hb hc
    · rfl

/-- **The RLP primitives are strict inverses.**  No decoder reads outside its view; each accepts
exactly the encodings of its values, on the host and on the guest; a header has one spelling; and
the encoders that write in place write the same bytes and nothing else. -/
theorem primitives_strict :
    ((∀ src, decodeHeaderChecked src = .ofExcept (decodeHeader src)) ∧
      (∀ mode src, decodeBytesChecked mode src = .ofExcept (decodeBytes mode src)) ∧
      (∀ w mode src, decodeUintChecked w mode src = .ofExcept (decodeUint w mode src)) ∧
      (∀ n mode src, decodeArrayChecked n mode src = .ofExcept (decodeArray n mode src)) ∧
      ∀ mode src, decodeBoolChecked mode src = .ofExcept (decodeBool mode src)) ∧
    ((∀ src h rest, decodeHeader src = .ok (h, rest) ↔ HeaderAt src h rest) ∧
      ∀ src src' h rest, decodeHeader src = .ok (h, rest) → decodeHeader src' = .ok (h, rest) →
        src = src') ∧
    (StrictInverse decodeBytes encodeBytes lengthBytes (·.length < 2 ^ 64) ∧
      (∀ k < 2 ^ 64, StrictInverse (decodeUint (8 * k)) encodeUint lengthUint fun _ => True) ∧
      (∀ n < 2 ^ 64, StrictInverse (decodeArray n) (fun v => encodeBytes v.val)
        (fun v => lengthBytes v.val)
        fun _ => True) ∧
      StrictInverse decodeBool encodeBool (fun _ => 1) fun _ => True) ∧
    (∀ w data, fromBigCompactRv32 w data = fromBigCompact w data) ∧
    ((∀ mem dst s, dst + lengthBytes s ≤ mem.length →
        encodeInto mem dst s = (writeAt mem dst (encodeBytes s), lengthBytes s)) ∧
      (∀ mem dst s, s.length < 56 → dst + lengthBytes s ≤ mem.length →
        encodeIntoSmall mem dst s = (writeAt mem dst (encodeBytes s), lengthBytes s)) ∧
      ∀ k < 56, ∀ mem dst (n : BitVec (8 * k)), dst + lengthUint n ≤ mem.length →
        encodeUintInto mem dst n = (writeAt mem dst (encodeUint n), lengthUint n)) := by
  refine ⟨⟨decodeHeaderChecked_eq, decodeBytesChecked_eq, decodeUintChecked_eq, decodeArrayChecked_eq,
    decodeBoolChecked_eq⟩, ⟨decodeHeader_iff, fun src src' h rest hs hs' => ?_⟩,
    ⟨decodeBytes_strict, fun k => decodeUint_strict, fun n => decodeArray_strict, decodeBool_strict⟩,
    fromBigCompactRv32_eq, fun mem dst s h => ?_, fun mem dst s hs h => ?_, fun k hk mem dst n h => ?_⟩
  · exact ((decodeHeader_iff _ _ _).mp hs).unique ((decodeHeader_iff _ _ _).mp hs')
  · rw [← encodeBytes_length] at h ⊢
    exact encodeInto_eq h
  · rw [← encodeBytes_length] at h ⊢
    exact encodeIntoSmall_eq hs h
  · rw [← encodeUint_length] at h ⊢
    exact encodeUintInto_eq hk h

end Zilkworm.Rlp
